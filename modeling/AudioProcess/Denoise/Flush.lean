import AudioProcess.Denoise.Stream

/-!
# What `blockThreshold_flush_float` and `blockThreshold_flush_int16` leave

The flush functions add the pending windows to the overlap tail and return `have_nblk_time` hops. They
keep the last half window of the result, and leave `have_nblk_time` and the pending windows as they are.

* `Sink`: the output and the flush function of one sample type, with `floatSink` and `s16Sink`;
* `StreamInv.flush`: `outbuf` after a flush; `emitted_flush`: all that a run and its flush deliver;
* `DeliversWhole`, `SecondFlushEmpty`, `NothingRepeated`: nothing is lost, nothing comes twice; `Drained`: all three;
* `length_flushed_afterFlush`: a second flush delivers the pending windows again;
* **`drained_iff`**: a flush drains the stream only when there was nothing to drain.
-/

namespace AudioProcess

open CFloat CLoop Mem OverlapAdd Runs

variable {F : Type} [CFloat F] {c : Config F} {kiss : Kiss F c.winSize} {α : Type}

/-! ## Calls -/

/-- A call of one of the denoise functions. -/
inductive HopCall (F : Type)
  | float (inp : Option (ℕ → F)) (inLen : ℤ)
  | int16 (inp : Option (ℕ → Int16)) (inLen : ℤ)

variable (c kiss) in
def denoiseHop (h : Handle F) : HopCall F → Mars × Handle F
  | .float inp inLen => blockThresholdDenoiseFloat c kiss h inp inLen
  | .int16 inp inLen => blockThresholdDenoiseInt16 c kiss h inp inLen

variable (c) in
/-- The hop that a call feeds. -/
def HopCall.hop : HopCall F → Option (ℕ → F)
  | .float inp inLen => if inLen = c.halfWinSize then inp else none
  | .int16 inp inLen =>
      if inLen = c.halfWinSize then inp.map fun x j => s16ToFloat (x j) else none

theorem denoiseHop_rejected (h : Handle F) {a : HopCall F} (ha : a.hop c = none) :
    denoiseHop c kiss h a = (.errorParams, h) := by
  cases a with
  | float inp inLen =>
      apply denoiseWith_rejected
      simp only [HopCall.hop] at ha
      split_ifs at ha with hlen
      · exact Or.inl ha
      · exact Or.inr hlen
  | int16 inp inLen =>
      cases inp with
      | none => rfl
      | some x =>
          simp only [HopCall.hop] at ha
          split_ifs at ha with hlen
          · exact absurd ha (Option.some_ne_none _)
          · exact (denoiseInt16_eq kiss h x inLen).trans (if_pos hlen)

theorem denoiseHop_accepted (h : Handle F) {a : HopCall F} {v : ℕ → F} (ha : a.hop c = some v) :
    ∃ w v', (∀ j < c.halfWinSize, v' j = v j) ∧ denoiseHop c kiss h a =
      denoiseWith c kiss (blockThresholdCore c) (h.stage w) (some v') c.halfWinSize := by
  cases a with
  | float inp inLen =>
      simp only [HopCall.hop] at ha
      split_ifs at ha with hlen
      exact ⟨h.inbufWin, v, fun _ _ => rfl, by rw [ha, hlen]; rfl⟩
  | int16 inp inLen =>
      simp only [HopCall.hop] at ha
      split_ifs at ha with hlen
      obtain ⟨x, rfl, hx⟩ := Option.map_eq_some_iff.mp ha
      refine ⟨stagedS16 c h x, stagedS16 c h x, fun j hj => ?_, ?_⟩
      · rw [← hx]
        exact if_pos hj
      · rw [denoiseHop, denoiseInt16_eq, if_neg (not_not.mpr hlen), hlen]
        rfl

variable (c kiss α) in
/-- The output and the flush function of samples in `α`. -/
structure Sink where
  conv : F → α
  output : Handle F → (ℕ → α) → ℤ → ℤ × (ℕ → α)
  flush : Handle F → (ℕ → α) → ℤ → ℤ × (ℕ → α) × Handle F
  delivered_output : ∀ h out outLen, (c.macroSize : ℤ) ≤ outLen →
    delivered (output h out outLen) = (readCells h.outbuf 0 c.macroSize).map conv
  flush_handle : ∀ h out outLen, (flushSize c h : ℤ) ≤ outLen →
    (flush h out outLen).2.2 = flushWindows c kiss h
  delivered_flush : ∀ h out outLen, (flushSize c h : ℤ) ≤ outLen →
    delivered ((flush h out outLen).1, (flush h out outLen).2.1) =
      (readCells (flushWindows c kiss h).outbuf 0 (flushSize c h)).map conv

theorem readCells_convertS16 (src : ℕ → F) (n : ℕ) (out : ℕ → Int16) :
    readCells (convertS16 src n out) 0 n = (readCells src 0 n).map floatToS16 := by
  unfold convertS16 readCells
  rw [forLoop_set, List.map_map]
  refine List.map_congr_left fun k hk => ?_
  rw [Nat.zero_add]
  exact (if_pos (List.mem_range.mp hk)).trans (by rw [Function.comp_apply, Nat.zero_add])

variable (c kiss) in
/-- `blockThreshold_output_float` and `blockThreshold_flush_float`. -/
def floatSink : Sink c kiss F where
  conv v := v
  output := blockThresholdOutputFloat c
  flush := blockThresholdFlushFloat c kiss
  delivered_output h out outLen hlen := by rw [delivered_outputFloat hlen, List.map_id']
  flush_handle h out outLen hlen := by rw [blockThresholdFlushFloat, if_neg (not_lt.mpr hlen)]
  delivered_flush h out outLen hlen := by
    rw [blockThresholdFlushFloat, if_neg (not_lt.mpr hlen), List.map_id']
    exact readCells_memcpy out _ _

variable (c kiss) in
/-- `blockThreshold_output_int16` and `blockThreshold_flush_int16`. -/
def s16Sink : Sink c kiss Int16 where
  conv := floatToS16
  output := blockThresholdOutputInt16 c
  flush := blockThresholdFlushInt16 c kiss
  delivered_output h out outLen hlen := by
    rw [blockThresholdOutputInt16, if_neg (not_lt.mpr hlen)]
    exact readCells_convertS16 _ _ out
  flush_handle h out outLen hlen := by rw [blockThresholdFlushInt16, if_neg (not_lt.mpr hlen)]
  delivered_flush h out outLen hlen := by
    rw [blockThresholdFlushInt16, if_neg (not_lt.mpr hlen)]
    exact readCells_convertS16 _ _ out

/-- A denoise call, and the memory for the output call that may follow it. -/
structure SinkCall (F α : Type) where
  arg : HopCall F
  out : ℕ → α
  outLen : ℤ

/-- The caller that sends its output to `sink`. -/
def sinkCaller (sink : Sink c kiss α) : Caller c kiss (blockThresholdCore c) (SinkCall F α) α where
  denoise h a := denoiseHop c kiss h a.arg
  emit h a := delivered (sink.output h a.out a.outLen)
  hop a := a.arg.hop c
  room a := c.macroSize ≤ a.outLen
  conv := sink.conv
  rejected h _ ha := denoiseHop_rejected h ha
  feeds h _ _ ha := denoiseHop_accepted h ha
  emit_eq h a hroom := sink.delivered_output h a.out a.outLen hroom

/-! ## A flush -/

variable (kiss) in
/-- Frame `t` of a run of `n` hops and a flush: the pending windows are not processed. -/
def flushFrame (x : ℕ → ℕ → F) (junk : ℕ → ℕ → Cpx F) (n t : ℕ) : ℕ → F :=
  if t < maxNblkTime * (n / maxNblkTime) then outFrame kiss (coreCoef c) x junk t
  else outFrame kiss (fun coef => coef) x junk t

variable {x : ℕ → ℕ → F} {junk : ℕ → ℕ → Cpx F} {n : ℕ} {h : Handle F}

theorem overlapAdd_flushFrame (p : ℕ) :
    overlapAdd c.halfWinSize (flushFrame kiss x junk n) (maxNblkTime * (n / maxNblkTime)) p =
      overlapAdd c.halfWinSize (outFrame kiss (coreCoef c) x junk) (maxNblkTime * (n / maxNblkTime)) p :=
  overlapAdd_congr fun t ht j _ => by rw [flushFrame, if_pos ht]

/-- **`outbuf` after a flush.** -/
theorem StreamInv.flush (hs : StreamInv kiss (outFrame kiss (coreCoef c) x junk) x 0 n h)
    (hwin : c.winSize = 2 * c.halfWinSize) {p : ℕ} (hp : p < c.macroSize + c.halfWinSize) :
    (flushWindows c kiss h).outbuf p = overlapAdd c.halfWinSize (flushFrame kiss x junk n) n
      (c.halfWinSize * (maxNblkTime * (n / maxNblkTime)) + p) := by
  have hrow : ∀ i < n % maxNblkTime, synthesis c kiss (h.stftCoef i) =
      flushFrame kiss x junk n (maxNblkTime * (n / maxNblkTime) + i) := by
    intro i hi
    have hi8 : i < maxNblkTime := hi.trans (Nat.mod_lt n (by decide))
    rw [flushFrame, if_neg (by omega), outFrame_at kiss _ x junk _ hi8]
    refine synthesis_congr kiss fun f hf => ?_
    have hf' : f < c.winSize / 2 + 1 := Nat.lt_succ_of_le hf
    rw [group, writeRow, dif_pos hf', ← Nat.zero_add (_ + i)]
    exact hs.stftCoef i hi ⟨f, hf'⟩
  have htail : ∀ j < c.halfWinSize, h.outbuf (c.macroSize + j) = overlapAdd c.halfWinSize
      (flushFrame kiss x junk n) (maxNblkTime * (n / maxNblkTime))
      (c.halfWinSize * (maxNblkTime * (n / maxNblkTime)) + j) :=
    fun j hj => (hs.tail j hj).trans (overlapAdd_flushFrame _).symm
  have hadd := overlapAdd_add c.halfWinSize (flushFrame kiss x junk n) (maxNblkTime * (n / maxNblkTime))
    (n % maxNblkTime) p
  rw [Nat.div_add_mod, ← shiftOutbuf_tail htail hp] at hadd
  rw [hadd, flushWindows, (outbuf_inverse kiss hwin h.haveNblkTime h).2, hs.haveNblkTime]
  refine forLoop_congr _ fun i acc _ hi => ?_
  simp only [addFrame, hrow i hi]

variable (sink : Sink c kiss α) {s : Handle F × List α}

/-- The samples that a flush delivers. -/
def flushed (h : Handle F) (out : ℕ → α) (outLen : ℤ) : List α :=
  delivered ((sink.flush h out outLen).1, (sink.flush h out outLen).2.1)

/-- **All that a run and its flush deliver**: the overlap-add without its last half window. -/
theorem emitted_flush (hs : RunInv (sinkCaller sink) (outFrame kiss (coreCoef c) x junk) x 0 n s)
    (hwin : c.winSize = 2 * c.halfWinSize) {out : ℕ → α} {outLen : ℤ}
    (hlen : (flushSize c s.1 : ℤ) ≤ outLen) :
    s.2 ++ flushed sink s.1 out outLen =
      (List.range (c.halfWinSize * n)).map fun p =>
        sink.conv (overlapAdd c.halfWinSize (flushFrame kiss x junk n) n p) := by
  have hsplit : c.halfWinSize * n = c.halfWinSize * (maxNblkTime * (n / maxNblkTime)) +
      flushSize c s.1 := by
    rw [flushSize, hs.handle.haveNblkTime, Nat.mul_comm (n % maxNblkTime), ← Nat.mul_add, Nat.div_add_mod]
  have hsize : flushSize c s.1 ≤ c.macroSize := by
    rw [flushSize, hs.handle.haveNblkTime, Nat.mul_comm]
    exact Nat.mul_le_mul_left _ (Nat.mod_lt n (by decide)).le
  rw [flushed, sink.delivered_flush s.1 out outLen hlen, hs.emitted, hsplit, List.range_add, List.map_append,
    readCells, List.map_map, List.map_map]
  congr 1
  · refine List.map_congr_left fun p hp => congrArg sink.conv ?_
    rw [← overlapAdd_flushFrame]
    exact (overlapAdd_stable (Nat.mul_div_le n maxNblkTime) (List.mem_range.mp hp)).symm
  · refine List.map_congr_left fun k hk => congrArg sink.conv ?_
    have hk := List.mem_range.mp hk
    beta_reduce
    rw [Nat.zero_add]
    exact hs.handle.flush hwin (by omega)

/-! ## Draining -/

variable (c) in
/-- The hop that a caller of a sink feeds. -/
def sinkHop (a : SinkCall F α) : Option (ℕ → F) := a.arg.hop c

/-- The state after a run from the handle `h`. -/
def afterRun (h : Handle F) (calls : List (SinkCall F α)) : Handle F × List α :=
  final (sinkCaller sink).turn (h, []) calls

/-- The handle after a run and a flush. -/
def afterFlush (h : Handle F) (calls : List (SinkCall F α)) (out : ℕ → α) (outLen : ℤ) : Handle F :=
  (sink.flush (afterRun sink h calls).1 out outLen).2.2

/-- The run and the flush deliver the whole overlap-add of the frames, the second half of the last one included. -/
def DeliversWhole (h : Handle F) (calls : List (SinkCall F α)) (out : ℕ → α) (outLen : ℤ) : Prop :=
  (afterRun sink h calls).2 ++ flushed sink (afterRun sink h calls).1 out outLen =
    (List.range (if (accepted (sinkHop c) calls).length = 0 then 0
      else c.halfWinSize * ((accepted (sinkHop c) calls).length + 1))).map fun p =>
      sink.conv (overlapAdd c.halfWinSize
        (flushFrame kiss (hops (sinkHop c) calls) h.stftCoef (accepted (sinkHop c) calls).length)
        (accepted (sinkHop c) calls).length p)

/-- A second flush delivers nothing. -/
def SecondFlushEmpty (h : Handle F) (calls : List (SinkCall F α)) (out : ℕ → α) (outLen : ℤ) : Prop :=
  ∀ out' outLen', (flushSize c (afterFlush sink h calls out outLen) : ℤ) ≤ outLen' →
    flushed sink (afterFlush sink h calls out outLen) out' outLen' = []

/-- What later calls deliver is the overlap-add of the later frames alone. -/
def NothingRepeated (h : Handle F) (calls : List (SinkCall F α)) (out : ℕ → α) (outLen : ℤ) : Prop :=
  ∀ calls' : List (SinkCall F α), (∀ a ∈ calls', (c.macroSize : ℤ) ≤ a.outLen) →
    (afterRun sink (afterFlush sink h calls out outLen) calls').2 =
      (List.range (c.halfWinSize * (maxNblkTime * ((accepted (sinkHop c) calls').length / maxNblkTime)))).map
        fun p => sink.conv (overlapAdd c.halfWinSize
          (frameFrom kiss (coreCoef c) (hops (sinkHop c) (calls ++ calls')) h.stftCoef
            (accepted (sinkHop c) calls).length)
          (maxNblkTime * ((accepted (sinkHop c) calls').length / maxNblkTime)) p)

/-- A flush drains the stream. -/
structure Drained (h : Handle F) (calls : List (SinkCall F α)) (out : ℕ → α) (outLen : ℤ) : Prop where
  whole : DeliversWhole sink h calls out outLen
  again : SecondFlushEmpty sink h calls out outLen
  later : NothingRepeated sink h calls out outLen

section Drain

variable {sink} {calls : List (SinkCall F α)} {out : ℕ → α} {outLen : ℤ}
  (hwin : c.winSize = 2 * c.halfWinSize) (hfresh : Fresh c h) (hroom : ∀ a ∈ calls, (c.macroSize : ℤ) ≤ a.outLen)
  (hlen : (flushSize c (afterRun sink h calls).1 : ℤ) ≤ outLen)

include hwin hfresh hroom

theorem runInv_afterRun : RunInv (sinkCaller sink)
    (outFrame kiss (coreCoef c) (hops (sinkHop c) calls) h.stftCoef) (hops (sinkHop c) calls) 0
    (accepted (sinkHop c) calls).length (afterRun sink h calls) :=
  (RunInv.of_fresh (sinkCaller sink) (blockProc_core c) hwin hfresh hroom h.stftCoef).2

/-- What the flush asks for. -/
theorem flushSize_afterRun : flushSize c (afterRun sink h calls).1 =
    (accepted (sinkHop c) calls).length % maxNblkTime * c.halfWinSize := by
  rw [flushSize, (runInv_afterRun hwin hfresh hroom).handle.haveNblkTime]

include hlen

/-- The flush leaves the number of pending windows as it is. -/
theorem haveNblkTime_afterFlush : (afterFlush sink h calls out outLen).haveNblkTime =
    (accepted (sinkHop c) calls).length % maxNblkTime := by
  rw [afterFlush, sink.flush_handle _ _ _ hlen]
  exact (outbuf_inverse kiss hwin _ _).1.haveNblkTime.trans (runInv_afterRun hwin hfresh hroom).handle.haveNblkTime

/-- A second flush delivers the pending windows once more. -/
theorem length_flushed_afterFlush {out' : ℕ → α} {outLen' : ℤ}
    (hlen' : (flushSize c (afterFlush sink h calls out outLen) : ℤ) ≤ outLen') :
    (flushed sink (afterFlush sink h calls out outLen) out' outLen').length =
      (accepted (sinkHop c) calls).length % maxNblkTime * c.halfWinSize := by
  rw [flushed, sink.delivered_flush _ _ _ hlen', List.length_map, length_readCells, flushSize,
    haveNblkTime_afterFlush hwin hfresh hroom hlen]

/-- The whole overlap-add has half a window more than the run and the flush deliver. -/
theorem deliversWhole_iff (hhalf : 0 < c.halfWinSize) :
    DeliversWhole sink h calls out outLen ↔ accepted (sinkHop c) calls = [] := by
  have hemitted : (afterRun sink h calls).2 ++ flushed sink (afterRun sink h calls).1 out outLen = _ :=
    emitted_flush sink (runInv_afterRun hwin hfresh hroom) hwin hlen
  constructor
  · intro hwhole
    have hlength := congrArg List.length (hemitted.symm.trans hwhole)
    rw [List.length_map, List.length_map, List.length_range, List.length_range] at hlength
    by_contra hne
    have hm : (accepted (sinkHop c) calls).length ≠ 0 := fun h0 => hne (List.length_eq_zero_iff.mp h0)
    rw [if_neg hm] at hlength
    exact Nat.succ_ne_self _ (Nat.eq_of_mul_eq_mul_left hhalf hlength).symm
  · intro hnil
    have hm : (accepted (sinkHop c) calls).length = 0 := by rw [hnil]; rfl
    rw [DeliversWhole, hemitted, if_pos hm, hm, Nat.mul_zero]

/-- A second flush is empty where the first one found no pending window. -/
theorem secondFlushEmpty_iff (hhalf : 0 < c.halfWinSize) :
    SecondFlushEmpty sink h calls out outLen ↔ maxNblkTime ∣ (accepted (sinkHop c) calls).length := by
  constructor
  · intro hempty
    have hlength : (flushed sink (afterFlush sink h calls out outLen) out
        (flushSize c (afterFlush sink h calls out outLen))).length = _ :=
      length_flushed_afterFlush hwin hfresh hroom hlen le_rfl
    rw [hempty out _ le_rfl, List.length_nil] at hlength
    exact Nat.dvd_of_mod_eq_zero ((Nat.mul_eq_zero.mp hlength.symm).resolve_right hhalf.ne')
  · intro hdvd out' outLen' hlen'
    apply List.length_eq_zero_iff.mp
    rw [length_flushed_afterFlush hwin hfresh hroom hlen hlen', Nat.mod_eq_zero_of_dvd hdvd, Nat.zero_mul]

omit hfresh hroom hlen in
/-- With no window pending, a flush leaves the handle at the start of a stream. -/
theorem StreamInv.flush_start {y : ℕ → ℕ → F} (hs : StreamInv kiss (outFrame kiss (coreCoef c) x junk) x 0 n h)
    (hdvd : maxNblkTime ∣ n) : StreamInv kiss y x n 0 (flushWindows c kiss h) := by
  have hframe := (outbuf_inverse kiss hwin h.haveNblkTime h).1
  refine ⟨?_, fun j hj => ?_, fun r hr => absurd hr (Nat.not_lt_zero r), fun j hj => ?_⟩
  · exact (hframe.haveNblkTime.trans hs.haveNblkTime).trans (Nat.mod_eq_zero_of_dvd hdvd)
  · rw [flushWindows, hframe.inbuf, hs.inbuf j hj, Nat.zero_add]
    rfl
  · rw [hs.flush hwin (by omega), Nat.mul_div_cancel' hdvd]
    exact overlapAdd_eq_zero (by unfold Config.macroSize maxNblkTime; omega)

/-- Later calls start afresh where the flush found no pending window. -/
theorem nothingRepeated_of_dvd (hdvd : maxNblkTime ∣ (accepted (sinkHop c) calls).length) :
    NothingRepeated sink h calls out outLen := by
  intro calls' hroom'
  obtain ⟨hbefore, hafter⟩ := feeds_hops_append (c := c) (sinkHop c) calls calls'
  let stream := hops (sinkHop c) (calls ++ calls')
  have hfirst : StreamInv kiss (frameFrom kiss (coreCoef c) stream h.stftCoef 0) stream 0 0 h := hfresh.streamInv hwin
  have hrun := (RunInv.of_start (sinkCaller sink) (blockProc_core c) hwin hfirst hroom hbefore).2.handle
  rw [frameFrom_zero] at hrun
  have hstart : StreamInv kiss (frameFrom kiss (coreCoef c) stream h.stftCoef (accepted (sinkHop c) calls).length)
      stream (accepted (sinkHop c) calls).length 0 (afterFlush sink h calls out outLen) := by
    rw [afterFlush, sink.flush_handle _ _ _ hlen]
    exact hrun.flush_start hwin hdvd
  exact (RunInv.of_start (sinkCaller sink) (blockProc_core c) hwin hstart hroom' hafter).2.emitted

/-- A hop of zeros. -/
def zerosCall (c : Config F) (out : ℕ → α) : SinkCall F α :=
  ⟨.float (some fun _ => ofRat 0) c.halfWinSize, out, c.macroSize⟩

/-- With windows pending, the hops that complete a macro-block deliver one, with these windows in it. -/
theorem dvd_of_nothingRepeated (hhalf : 0 < c.halfWinSize) (hlater : NothingRepeated sink h calls out outLen) :
    maxNblkTime ∣ (accepted (sinkHop c) calls).length := by
  by_contra hndvd
  let r := (accepted (sinkHop c) calls).length % maxNblkTime
  have hr : 0 < r := Nat.pos_of_ne_zero fun h => hndvd (Nat.dvd_of_mod_eq_zero h)
  have hr8 : r < maxNblkTime := Nat.mod_lt _ (by decide)
  let calls' : List (SinkCall F α) := List.replicate (maxNblkTime - r) (zerosCall c out)
  have hroom' : ∀ a ∈ calls', (c.macroSize : ℤ) ≤ a.outLen := fun a ha =>
    (List.eq_of_mem_replicate ha) ▸ le_rfl
  have hhop : sinkHop c (zerosCall c out) = some fun _ => ofRat 0 := if_pos rfl
  have hacc : (accepted (sinkHop c) calls').length = maxNblkTime - r := by
    rw [accepted, List.filterMap_replicate_of_some hhop, List.length_replicate]
  have hcount : Counted c r (afterFlush sink h calls out outLen, ([] : List α)) := by
    refine ⟨?_, ?_⟩
    · rw [haveNblkTime_afterFlush hwin hfresh hroom hlen, Nat.mod_mod]
    · rw [Nat.div_eq_of_lt hr8]
      rfl
  have hturns := (hcount.turns (C := sinkCaller sink) hroom').length
  have hlength := congrArg List.length (hlater calls' hroom')
  rw [List.length_map, List.length_range, hacc, Nat.div_eq_of_lt (by omega), Nat.mul_zero, Nat.mul_zero] at hlength
  have hfull : r + (accepted (sinkCaller sink).hop calls').length = maxNblkTime := by
    show r + (accepted (sinkHop c) calls').length = maxNblkTime
    omega
  rw [hfull, Nat.div_self (by decide), Nat.mul_one] at hturns
  have hmacro : 0 < c.macroSize := Nat.mul_pos hhalf (by decide)
  have : c.macroSize = 0 := hturns.symm.trans hlength
  omega

theorem nothingRepeated_iff (hhalf : 0 < c.halfWinSize) :
    NothingRepeated sink h calls out outLen ↔ maxNblkTime ∣ (accepted (sinkHop c) calls).length :=
  ⟨dvd_of_nothingRepeated hwin hfresh hroom hlen hhalf, nothingRepeated_of_dvd hwin hfresh hroom hlen⟩

end Drain

/-- **A flush drains the stream only when there was nothing to drain**: exactly when no frame was accepted before it.
A second flush delivers nothing, and later calls repeat nothing, exactly when the number of accepted frames is a
multiple of eight. -/
theorem drained_iff (sink : Sink c kiss α) (h : Handle F) (calls : List (SinkCall F α)) (out : ℕ → α)
    (outLen : ℤ) (hwin : c.winSize = 2 * c.halfWinSize) (htwo : 2 ≤ c.winSize) (hfresh : Fresh c h)
    (hroom : ∀ a ∈ calls, (c.macroSize : ℤ) ≤ a.outLen)
    (hlen : (flushSize c (afterRun sink h calls).1 : ℤ) ≤ outLen) :
    (Drained sink h calls out outLen ↔ accepted (sinkHop c) calls = []) ∧
    (SecondFlushEmpty sink h calls out outLen ↔ maxNblkTime ∣ (accepted (sinkHop c) calls).length) ∧
    (NothingRepeated sink h calls out outLen ↔ maxNblkTime ∣ (accepted (sinkHop c) calls).length) := by
  have hhalf : 0 < c.halfWinSize := by omega
  have hwhole : DeliversWhole sink h calls out outLen ↔ _ := deliversWhole_iff hwin hfresh hroom hlen hhalf
  have hagain : SecondFlushEmpty sink h calls out outLen ↔ _ := secondFlushEmpty_iff hwin hfresh hroom hlen hhalf
  have hlater : NothingRepeated sink h calls out outLen ↔ _ := nothingRepeated_iff hwin hfresh hroom hlen hhalf
  refine ⟨⟨fun hd => hwhole.mp hd.whole, fun hnil => ?_⟩, hagain, hlater⟩
  have hdvd : maxNblkTime ∣ (accepted (sinkHop c) calls).length := by
    rw [hnil]
    exact Nat.dvd_zero maxNblkTime
  exact ⟨hwhole.mpr hnil, hagain.mpr hdvd, hlater.mpr hdvd⟩

/-- A hop of ones, with room for the output. -/
noncomputable def onesCall : SinkCall ℝ ℝ := ⟨.float (some fun _ => 1) 1, fun _ => 0, 8⟩

/-- A call with a wrong `in_len`. -/
noncomputable def wrongCall : SinkCall ℝ ℝ := ⟨.float (some fun _ => 1) 2, fun _ => 0, 8⟩

theorem accepted_onesCall (n : ℕ) :
    accepted (sinkHop pairConfig) (wrongCall :: List.replicate n onesCall) = List.replicate n fun _ => 1 := by
  have hwrong : sinkHop pairConfig wrongCall = none := rfl
  have hones : sinkHop pairConfig onesCall = some fun _ => 1 := rfl
  rw [accepted, List.filterMap_cons_none hwrong, List.filterMap_replicate_of_some hones]

theorem room_onesCall (n : ℕ) :
    ∀ a ∈ wrongCall :: List.replicate n onesCall, (pairConfig.macroSize : ℤ) ≤ a.outLen := by
  intro a ha
  rcases List.mem_cons.mp ha with rfl | ha
  · decide
  · rw [List.eq_of_mem_replicate ha]
    decide

theorem flushSize_onesCall (n : ℕ) : (flushSize pairConfig (afterRun (floatSink pairConfig pairKiss) pairHandle
    (wrongCall :: List.replicate n onesCall)).1 : ℤ) ≤ 8 := by
  have hsize : flushSize pairConfig (afterRun (floatSink pairConfig pairKiss) pairHandle
      (wrongCall :: List.replicate n onesCall)).1 = _ :=
    flushSize_afterRun rfl fresh_pairHandle (room_onesCall n)
  rw [accepted_onesCall, List.length_replicate, show pairConfig.halfWinSize = 1 from rfl] at hsize
  have hmod := Nat.mod_lt n (show 0 < maxNblkTime by decide)
  have hmax : maxNblkTime = 8 := rfl
  omega

/-- A rejected call, then no hop, eight hops and nine hops. -/
theorem drained_iff_pair :
    Drained (floatSink pairConfig pairKiss) pairHandle [wrongCall] (fun _ => 0) 8 ∧
    NothingRepeated (floatSink pairConfig pairKiss) pairHandle (wrongCall :: List.replicate 8 onesCall)
      (fun _ => 0) 8 ∧
    ¬ SecondFlushEmpty (floatSink pairConfig pairKiss) pairHandle (wrongCall :: List.replicate 9 onesCall)
      (fun _ => 0) 8 := by
  have hiff := fun n => drained_iff (floatSink pairConfig pairKiss) pairHandle
    (wrongCall :: List.replicate n onesCall) (fun _ => 0) 8 rfl (by decide) fresh_pairHandle (room_onesCall n)
    (flushSize_onesCall n)
  refine ⟨(hiff 0).1.mpr rfl, (hiff 8).2.2.mpr ?_, fun hempty => ?_⟩
  · rw [accepted_onesCall, List.length_replicate]
    exact Nat.dvd_refl 8
  · have hdvd := (hiff 9).2.1.mp hempty
    rw [accepted_onesCall, List.length_replicate] at hdvd
    exact absurd hdvd (by decide)

/-- A rejected call and one hop of ones, from a fresh handle: the flush delivers one sample of the window's two, a second
flush delivers it again, and so do later calls. -/
theorem not_drained_pair : Fresh pairConfig pairHandle ∧
    (accepted (sinkHop pairConfig) (wrongCall :: List.replicate 1 onesCall)).length = 1 ∧
    ¬ DeliversWhole (floatSink pairConfig pairKiss) pairHandle (wrongCall :: List.replicate 1 onesCall)
      (fun _ => 0) 8 ∧
    ¬ SecondFlushEmpty (floatSink pairConfig pairKiss) pairHandle (wrongCall :: List.replicate 1 onesCall)
      (fun _ => 0) 8 ∧
    ¬ NothingRepeated (floatSink pairConfig pairKiss) pairHandle (wrongCall :: List.replicate 1 onesCall)
      (fun _ => 0) 8 := by
  have hndvd : ¬ maxNblkTime ∣ (accepted (sinkHop pairConfig) (wrongCall :: List.replicate 1 onesCall)).length := by
    rw [accepted_onesCall, List.length_replicate]
    decide
  have hroom := room_onesCall 1
  have hsize := flushSize_onesCall 1
  refine ⟨fresh_pairHandle, rfl, fun hwhole => ?_, fun hempty => hndvd ?_, fun hlater => hndvd ?_⟩
  · have hnil := (deliversWhole_iff rfl fresh_pairHandle hroom hsize (by decide)).mp hwhole
    rw [accepted_onesCall] at hnil
    exact List.cons_ne_nil _ _ hnil
  · exact (secondFlushEmpty_iff rfl fresh_pairHandle hroom hsize (by decide)).mp hempty
  · exact dvd_of_nothingRepeated rfl fresh_pairHandle hroom hsize (by decide) hlater

end AudioProcess
