import AudioProcess.Denoise.Windows
import AudioProcess.Lib.Run

/-!
# Streaming denoise is overlap-add

A caller feeds hops to a denoise function and, each time it returns `MARS_CAN_OUTPUT`, appends the samples
of an output function to its output.

* `Caller`: a choice of the two functions; `Caller.turn`: one turn; `RunInv`: what the caller has;
* `RunInv.turn`, `RunInv.turns`: a turn, and a run, keep it and return the expected codes; `RunInv.of_fresh`;
* `Counted`: how much a run delivers, from any handle;
* `floatCaller`: `blockThreshold_denoise_float` and `blockThreshold_output_float`;
* **`stream_eq_overlapAdd`**: the output is the overlap-add of the processed windows.
-/

namespace AudioProcess

open CFloat CLoop Mem OverlapAdd Runs

variable {F : Type} [CFloat F]

/-! ## Callers -/

section Hops

variable {ι : Type} (hop : ι → Option (ℕ → F))

/-- The accepted hops of a list of calls, `hop` being the hop that a call feeds, if it is accepted. -/
def accepted (calls : List ι) : List (ℕ → F) := calls.filterMap hop

/-- The accepted hops as a stream. -/
def hops (calls : List ι) : ℕ → ℕ → F := fun n => (accepted hop calls).getD n fun _ => ofRat 0

/-- The expected return codes after `n` accepted hops: the `k`-th accepted call completes a macro-block
exactly when `8` divides `k`. -/
def replyCodes (n : ℕ) : List ι → List Mars
  | [] => []
  | a :: as =>
      match hop a with
      | none => .errorParams :: replyCodes n as
      | some _ => (if maxNblkTime ∣ n + 1 then .canOutput else .needMoreSamples) :: replyCodes (n + 1) as

end Hops

/-- A caller with arguments in `ι` and output samples in `α`. `hop` is the hop that the arguments feed, if
the denoiser accepts them, and `room` says that the output memory is large enough. -/
structure Caller (c : Config F) (kiss : Kiss F c.winSize) (core : Handle F → Handle F) (ι α : Type) where
  denoise : Handle F → ι → Mars × Handle F
  emit : Handle F → ι → List α
  hop : ι → Option (ℕ → F)
  room : ι → Prop
  conv : F → α
  rejected : ∀ h a, hop a = none → denoise h a = (.errorParams, h)
  feeds : ∀ h a v, hop a = some v → ∃ w v', (∀ j < c.halfWinSize, v' j = v j) ∧
    denoise h a = denoiseWith c kiss core (h.stage w) (some v') c.halfWinSize
  emit_eq : ∀ h a, room a → emit h a = (readCells h.outbuf 0 c.macroSize).map conv

variable {c : Config F} {kiss : Kiss F c.winSize} {core : Handle F → Handle F} {ι α : Type}

/-- One turn. -/
def Caller.turn (C : Caller c kiss core ι α) (s : Handle F × List α) (a : ι) : Mars × Handle F × List α :=
  let r := C.denoise s.1 a
  if r.1 = .canOutput then (r.1, r.2, s.2 ++ C.emit r.2 a) else (r.1, r.2, s.2)

/-- After the `n` hops of `x` from hop `b` on the caller has the overlap-add of the finished macro-blocks. -/
structure RunInv (C : Caller c kiss core ι α) (y x : ℕ → ℕ → F) (b n : ℕ) (s : Handle F × List α) : Prop where
  handle : StreamInv kiss y x b n s.1
  emitted : s.2 = (List.range (c.halfWinSize * (maxNblkTime * (n / maxNblkTime)))).map fun p =>
    C.conv (overlapAdd c.halfWinSize y (maxNblkTime * (n / maxNblkTime)) p)

variable {C : Caller c kiss core ι α} {y x : ℕ → ℕ → F} {b n : ℕ} {s : Handle F × List α}

theorem RunInv.rejected (hs : RunInv C y x b n s) {a : ι} (ha : C.hop a = none) :
    (C.turn s a).1 = .errorParams ∧ RunInv C y x b n (C.turn s a).2 := by
  have hturn : C.turn s a = (.errorParams, s) := by
    rw [Caller.turn, C.rejected s.1 a ha]
    exact if_neg Mars.noConfusion
  rw [hturn]
  exact ⟨rfl, hs⟩

variable {K : (ℕ → ℕ → Cpx F) → ℕ → ℕ → Cpx F} {junk : ℕ → ℕ → Cpx F}

/-- **A turn of the caller.** -/
theorem RunInv.turn (hs : RunInv C (frameFrom kiss K x junk b) x b n s) (hcore : BlockProc c core K)
    (hwin : c.winSize = 2 * c.halfWinSize) {a : ι} {v : ℕ → F} (ha : C.hop a = some v)
    (hv : ∀ j < c.halfWinSize, v j = x (b + n) j) (hroom : C.room a) :
    (C.turn s a).1 = (if maxNblkTime ∣ n + 1 then .canOutput else .needMoreSamples) ∧
      RunInv C (frameFrom kiss K x junk b) x b (n + 1) (C.turn s a).2 := by
  obtain ⟨w, v', hv', hd⟩ := C.feeds s.1 a v ha
  have hx : ∀ j < c.halfWinSize, v' j = x (b + n) j := fun j hj => (hv' j hj).trans (hv j hj)
  have hstaged : StreamInv kiss (frameFrom kiss K x junk b) x b n (s.1.stage w) :=
    ⟨hs.handle.haveNblkTime, hs.handle.inbuf, hs.handle.stftCoef, hs.handle.tail⟩
  rw [denoiseWith_accepted, hstaged.haveNblkTime] at hd
  by_cases hdvd : maxNblkTime ∣ n + 1
  · have hmod := Nat.mod_eq_zero_of_dvd hdvd
    obtain ⟨hinv, hblock⟩ := hstaged.full hcore hwin hx hmod
    rw [if_neg (by unfold maxNblkTime at *; omega)] at hd
    rw [if_pos hdvd, Caller.turn, hd]
    simp only [if_true, C.emit_eq _ a hroom]
    refine ⟨trivial, hinv, ?_⟩
    have hdiv : (n + 1) / maxNblkTime = n / maxNblkTime + 1 := by unfold maxNblkTime at *; omega
    have hn8 : n + 1 = maxNblkTime * (n / maxNblkTime + 1) := by unfold maxNblkTime at *; omega
    rw [hdiv, ← hn8, hs.emitted]
    have hlen : c.halfWinSize * (n + 1) =
        c.halfWinSize * (maxNblkTime * (n / maxNblkTime)) + c.macroSize := by
      rw [hn8, Config.macroSize, Nat.mul_succ, Nat.mul_add]
    rw [hlen, List.range_add, List.map_append, List.map_map]
    show _ ++ List.map C.conv (List.map _ _) = _ ++ _
    rw [List.map_map]
    congr 1
    · refine List.map_congr_left fun p hp => congrArg C.conv ?_
      exact (overlapAdd_stable (by unfold maxNblkTime; omega) (List.mem_range.mp hp)).symm
    · refine List.map_congr_left fun k hk => congrArg C.conv ?_
      beta_reduce
      rw [Nat.zero_add, hblock k (by have := List.mem_range.mp hk; omega)]
  · have hmod : (n + 1) % maxNblkTime ≠ 0 := fun h => hdvd (Nat.dvd_of_mod_eq_zero h)
    have hdiv : (n + 1) / maxNblkTime = n / maxNblkTime := by unfold maxNblkTime at *; omega
    rw [if_pos (by unfold maxNblkTime at *; omega)] at hd
    rw [if_neg hdvd, Caller.turn, hd]
    refine ⟨rfl, hstaged.pending hwin hx hmod, ?_⟩
    rw [hdiv]
    exact hs.emitted

/-- **A run of the caller.** -/
theorem RunInv.turns (hcore : BlockProc c core K) (hwin : c.winSize = 2 * c.halfWinSize) :
    ∀ {calls : List ι} {n : ℕ} {s : Handle F × List α},
      RunInv C (frameFrom kiss K x junk b) x b n s → (∀ a ∈ calls, C.room a) →
      (∀ k v, (accepted C.hop calls)[k]? = some v → ∀ j < c.halfWinSize, v j = x (b + (n + k)) j) →
      outputs C.turn s calls = replyCodes C.hop n calls ∧
      RunInv C (frameFrom kiss K x junk b) x b (n + (accepted C.hop calls).length) (final C.turn s calls)
  | [], n, s, hs, _, _ => ⟨rfl, hs⟩
  | a :: calls, n, s, hs, hroom, hx => by
    have hrooms : ∀ b ∈ calls, C.room b := fun b hb => hroom b (List.mem_cons_of_mem _ hb)
    cases ha : C.hop a with
    | none =>
        have hacc : accepted C.hop (a :: calls) = accepted C.hop calls := List.filterMap_cons_none ha
        rw [hacc] at hx ⊢
        obtain ⟨hcode, hturn⟩ := hs.rejected ha
        obtain ⟨hcodes, hrun⟩ := RunInv.turns hcore hwin hturn hrooms hx
        rw [outputs, replyCodes, ha, hcode, hcodes]
        exact ⟨rfl, hrun⟩
    | some v =>
        have hacc : accepted C.hop (a :: calls) = v :: accepted C.hop calls := List.filterMap_cons_some ha
        rw [hacc] at hx ⊢
        obtain ⟨hcode, hturn⟩ := hs.turn hcore hwin ha (hx 0 v rfl) (hroom a List.mem_cons_self)
        obtain ⟨hcodes, hrun⟩ := RunInv.turns hcore hwin hturn hrooms fun k w hw j hj => by
          rw [hx (k + 1) w hw j hj, Nat.add_assoc n, Nat.add_comm 1 k]
        rw [outputs, replyCodes, ha, hcode, hcodes]
        refine ⟨rfl, ?_⟩
        rw [List.length_cons, Nat.add_comm _ 1, ← Nat.add_assoc]
        exact hrun

/-- The accepted hops of `calls` are those of the stream `x` from hop `b` on. -/
def Feeds (c : Config F) (hop : ι → Option (ℕ → F)) (calls : List ι) (x : ℕ → ℕ → F) (b : ℕ) : Prop :=
  ∀ k v, (accepted hop calls)[k]? = some v → ∀ j < c.halfWinSize, v j = x (b + k) j

theorem feeds_hops (hop : ι → Option (ℕ → F)) (calls : List ι) : Feeds c hop calls (hops hop calls) 0 := by
  intro k v hv j _
  rw [Nat.zero_add, hops, List.getD_eq_getElem?_getD, hv]
  rfl

theorem feeds_hops_append (hop : ι → Option (ℕ → F)) (calls calls' : List ι) :
    Feeds c hop calls (hops hop (calls ++ calls')) 0 ∧
    Feeds c hop calls' (hops hop (calls ++ calls')) (accepted hop calls).length := by
  have hacc : accepted hop (calls ++ calls') = accepted hop calls ++ accepted hop calls' := List.filterMap_append
  constructor
  · intro k v hv j _
    have hk := (List.getElem?_eq_some_iff.mp hv).1
    rw [Nat.zero_add, hops, List.getD_eq_getElem?_getD, hacc, List.getElem?_append_left hk, hv]
    rfl
  · intro k v hv j _
    rw [hops, List.getD_eq_getElem?_getD, hacc, List.getElem?_append_right (Nat.le_add_right _ k),
      Nat.add_sub_cancel_left, hv]
    rfl

/-- A run from the handle of a stream's start. -/
theorem RunInv.of_start (C : Caller c kiss core ι α) (hcore : BlockProc c core K)
    (hwin : c.winSize = 2 * c.halfWinSize) {h : Handle F}
    (hstart : StreamInv kiss (frameFrom kiss K x junk b) x b 0 h) {calls : List ι} (hroom : ∀ a ∈ calls, C.room a)
    (hfeeds : Feeds c C.hop calls x b) :
    outputs C.turn (h, []) calls = replyCodes C.hop 0 calls ∧
    RunInv C (frameFrom kiss K x junk b) x b (accepted C.hop calls).length (final C.turn (h, []) calls) := by
  have hbegin : RunInv C (frameFrom kiss K x junk b) x b 0 (h, []) := ⟨hstart, rfl⟩
  have hrun := hbegin.turns hcore hwin hroom fun k v hv j hj => by
    rw [Nat.zero_add]
    exact hfeeds k v hv j hj
  rwa [Nat.zero_add] at hrun

/-- **A run from a fresh handle.** -/
theorem RunInv.of_fresh (C : Caller c kiss core ι α) (hcore : BlockProc c core K)
    (hwin : c.winSize = 2 * c.halfWinSize) {h : Handle F} (hfresh : Fresh c h) {calls : List ι}
    (hroom : ∀ a ∈ calls, C.room a) (junk : ℕ → ℕ → Cpx F) :
    outputs C.turn (h, []) calls = replyCodes C.hop 0 calls ∧
    RunInv C (outFrame kiss K (hops C.hop calls) junk) (hops C.hop calls) 0 (accepted C.hop calls).length
      (final C.turn (h, []) calls) := by
  rw [← frameFrom_zero]
  exact RunInv.of_start C hcore hwin (hfresh.streamInv hwin) hroom (feeds_hops C.hop calls)

/-! ## How much is delivered -/

variable (c) in
/-- The windows that are pending and the samples that were delivered, whatever the handle holds. -/
structure Counted (n : ℕ) (s : Handle F × List α) : Prop where
  haveNblkTime : s.1.haveNblkTime = n % maxNblkTime
  length : s.2.length = c.macroSize * (n / maxNblkTime)

theorem Counted.turn (hs : Counted c n s) {a : ι} {v : ℕ → F} (ha : C.hop a = some v) (hroom : C.room a) :
    Counted c (n + 1) (C.turn s a).2 := by
  obtain ⟨w, v', -, hd⟩ := C.feeds s.1 a v ha
  have hstage : (s.1.stage w).haveNblkTime = n % maxNblkTime := hs.haveNblkTime
  have hmod := Nat.mod_lt n (show 0 < maxNblkTime by decide)
  rw [denoiseWith_accepted, hstage] at hd
  by_cases hfull : n % maxNblkTime + 1 = maxNblkTime
  · rw [if_neg (not_not.mpr hfull)] at hd
    rw [Caller.turn, hd]
    simp only [if_true, C.emit_eq _ a hroom]
    constructor
    · show 0 = (n + 1) % maxNblkTime
      unfold maxNblkTime at *
      omega
    · have hdiv : (n + 1) / maxNblkTime = n / maxNblkTime + 1 := by unfold maxNblkTime at *; omega
      rw [List.length_append, hs.length, List.length_map, length_readCells, hdiv, Nat.mul_succ]
  · rw [if_pos hfull] at hd
    rw [Caller.turn, hd]
    refine ⟨?_, ?_⟩
    · show (s.1.stage w).haveNblkTime + 1 = (n + 1) % maxNblkTime
      rw [hstage]
      unfold maxNblkTime at *
      omega
    · have hdiv : (n + 1) / maxNblkTime = n / maxNblkTime := by unfold maxNblkTime at *; omega
      rw [hdiv]
      exact hs.length

/-- **How much a run delivers**, from any handle. -/
theorem Counted.turns {calls : List ι} (hs : Counted c n s) (hroom : ∀ a ∈ calls, C.room a) :
    Counted c (n + (accepted C.hop calls).length) (final C.turn s calls) := by
  induction calls generalizing n s with
  | nil => exact hs
  | cons a calls ih =>
      have hrooms : ∀ b ∈ calls, C.room b := fun b hb => hroom b (List.mem_cons_of_mem _ hb)
      cases ha : C.hop a with
      | none =>
          have hacc : accepted C.hop (a :: calls) = accepted C.hop calls := List.filterMap_cons_none ha
          have hturn : (C.turn s a).2 = s := by
            rw [Caller.turn, C.rejected s.1 a ha]
            rfl
          rw [hacc, final, run_cons, hturn]
          exact ih hs hrooms
      | some v =>
          have hacc : accepted C.hop (a :: calls) = v :: accepted C.hop calls := List.filterMap_cons_some ha
          rw [hacc, List.length_cons, Nat.add_comm _ 1, ← Nat.add_assoc]
          exact ih (hs.turn ha (hroom a List.mem_cons_self)) hrooms

/-! ## Float calls -/

/-- The arguments of `blockThreshold_denoise_float`, and the memory for the output call that may follow. -/
structure FrameCall (F : Type) where
  inp : Option (ℕ → F)
  inLen : ℤ
  out : ℕ → F
  outLen : ℤ

variable (c) in
/-- The hop that a call feeds: `in` is not null and `in_len` is right. -/
def hop (a : FrameCall F) : Option (ℕ → F) := if a.inLen = c.halfWinSize then a.inp else none

omit [CFloat F] in
theorem hop_eq_some {a : FrameCall F} {v : ℕ → F} (h : hop c a = some v) :
    a.inp = some v ∧ a.inLen = c.halfWinSize := by
  unfold hop at h
  split_ifs at h with hl
  exact ⟨h, hl⟩

omit [CFloat F] in
theorem hop_eq_none {a : FrameCall F} (h : hop c a = none) :
    a.inp = none ∨ a.inLen ≠ c.halfWinSize := by
  unfold hop at h
  split_ifs at h with hl
  · exact Or.inl h
  · exact Or.inr hl

/-- The samples that an output or flush call delivers. -/
def delivered (r : ℤ × (ℕ → α)) : List α := readCells r.2 0 r.1.toNat

omit [CFloat F] in
theorem delivered_outputFloat {h : Handle F} {out : ℕ → F} {outLen : ℤ} (hout : c.macroSize ≤ outLen) :
    delivered (blockThresholdOutputFloat c h out outLen) = readCells h.outbuf 0 c.macroSize := by
  rw [blockThresholdOutputFloat, if_neg (not_lt.mpr hout)]
  exact readCells_memcpy out h.outbuf c.macroSize

variable (c kiss core) in
/-- The caller of `blockThreshold_denoise_float` and `blockThreshold_output_float`. -/
def floatCaller : Caller c kiss core (FrameCall F) F where
  denoise h a := denoiseWith c kiss core h a.inp a.inLen
  emit h a := delivered (blockThresholdOutputFloat c h a.out a.outLen)
  hop := hop c
  room a := c.macroSize ≤ a.outLen
  conv v := v
  rejected h a ha := denoiseWith_rejected kiss core h (hop_eq_none ha)
  feeds h a v ha := by
    obtain ⟨hinp, hlen⟩ := hop_eq_some ha
    exact ⟨h.inbufWin, v, fun _ _ => rfl, by rw [hinp, hlen]; rfl⟩
  emit_eq h a hroom := by rw [delivered_outputFloat hroom, List.map_id']

variable (c kiss core) in
/-- One turn of the float caller. -/
def streamWith : Handle F × List F → FrameCall F → Mars × Handle F × List F := (floatCaller c kiss core).turn

variable (c kiss) in
/-- One turn of the caller of the program's denoiser. -/
def stream : Handle F × List F → FrameCall F → Mars × Handle F × List F :=
  streamWith c kiss (blockThresholdCore c)

/-! ## The program's denoiser -/

section Program

variable (c kiss)

/-- Frame `t` of the output, `1 / win_size` times the inverse transform of window `t` after
`blockThreshold_core` on its group of eight; the rest of the handle is that of `g`. -/
def coreFrame (g : Handle F) (x : ℕ → ℕ → F) (t : ℕ) : ℕ → F :=
  synthesis c kiss ((blockThresholdCore c
    { g with stftCoef := group kiss x g.stftCoef (t / maxNblkTime) }).stftCoef (t % maxNblkTime))

theorem coreFrame_eq (g : Handle F) (x : ℕ → ℕ → F) :
    coreFrame c kiss g x = outFrame kiss (coreCoef c) x g.stftCoef := by
  funext t
  rw [coreFrame, blockThresholdCore_stftCoef]
  rfl

/-- **Streaming denoise is overlap-add.** From a fresh handle, over the reals, whatever else the handle
and the scratch memory `g` hold: the calls return the expected codes, and the caller's output is the sum of
the frames, each shifted by its number of hops. -/
theorem stream_eq_overlapAdd (c : Config ℝ) (kiss : Kiss ℝ c.winSize) (g h : Handle ℝ)
    (calls : List (FrameCall ℝ)) (m : ℕ) (hwin : c.winSize = 2 * c.halfWinSize) (hfresh : Fresh c h)
    (hout : ∀ a ∈ calls, (c.macroSize : ℤ) ≤ a.outLen)
    (hm : (accepted (hop c) calls).length = maxNblkTime * m) :
    outputs (stream c kiss) (h, []) calls = replyCodes (hop c) 0 calls ∧
    (final (stream c kiss) (h, []) calls).2 =
      (List.range (maxNblkTime * m * c.halfWinSize)).map fun p =>
        ∑ t ∈ Finset.range (maxNblkTime * m),
          if t * c.halfWinSize ≤ p ∧ p < t * c.halfWinSize + c.winSize then
            coreFrame c kiss g (hops (hop c) calls) t (p - t * c.halfWinSize)
          else 0 := by
  obtain ⟨hcodes, hrun⟩ := RunInv.of_fresh (floatCaller c kiss (blockThresholdCore c)) (blockProc_core c) hwin
    hfresh hout g.stftCoef
  have hlen : (accepted (floatCaller c kiss (blockThresholdCore c)).hop calls).length = maxNblkTime * m := hm
  refine ⟨hcodes, hrun.emitted.trans ?_⟩
  rw [hlen, Nat.mul_div_cancel_left m (by decide), Nat.mul_comm c.halfWinSize]
  refine List.map_congr_left fun p _ => ?_
  show overlapAdd c.halfWinSize (outFrame kiss (coreCoef c) (hops (hop c) calls) g.stftCoef) _ p = _
  rw [overlapAdd_eq_sum, coreFrame_eq]
  refine Finset.sum_congr rfl fun t _ => ?_
  simp only [Covers, hwin, Nat.mul_comm c.halfWinSize]

end Program

/-- A hop of the sample `v`, with room for the output. -/
noncomputable def pairCall (v : ℝ) : FrameCall ℝ := ⟨some fun _ => v, 1, fun _ => 0, 8⟩

theorem hops_pairCall (v : ℝ) {k : ℕ} (hk : k < 8) :
    hops (hop pairConfig) (List.replicate 8 (pairCall v)) k = fun _ => v := by
  have hacc : accepted (hop pairConfig) (List.replicate 8 (pairCall v)) = List.replicate 8 fun _ => v := rfl
  rw [hops, hacc, List.getD_eq_getElem?_getD, List.getElem?_replicate_of_lt hk]
  rfl

theorem stream_eq_overlapAdd_pair :
    outputs (stream pairConfig pairKiss) (pairHandle, []) (List.replicate 8 (pairCall 1)) =
      List.replicate 7 .needMoreSamples ++ [.canOutput] ∧
    (final (stream pairConfig pairKiss) (pairHandle, []) (List.replicate 8 (pairCall 1))).2.length = 8 := by
  have h := stream_eq_overlapAdd pairConfig pairKiss zeroHandle pairHandle (List.replicate 8 (pairCall 1)) 1
    rfl fresh_pairHandle (fun a ha => by rw [List.eq_of_mem_replicate ha]; decide) rfl
  refine ⟨h.1.trans (by rfl), ?_⟩
  rw [h.2, List.length_map, List.length_range]
  rfl

end AudioProcess
