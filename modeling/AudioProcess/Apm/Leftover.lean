import AudioProcess.Apm.Compose
import AudioProcess.Apm.NoAgc
import AudioProcess.Lib.Halves

/-!
# Short frames and what earlier calls left behind

`processUseRnnoise` denoises 480 samples of a channel however many the call brings; the others are what an earlier
call left in the capture buffer.

* `RnnCall`, `playRnn`: the calls on a module without gain control;
* `Ready`: what holds of it between them (`Ready.init`, `Ready.process`);
* `NoLeftover`: equal denoisers and equal frames give equal samples, whatever came before;
* `noLeftover_of`, `leftover_of_short`; **`noLeftover_iff`**.
-/

namespace AudioProcess

open CFloat CLoop Mem

variable {F : Type} [CFloat F] {V : Vendor}

/-- A call on a module without gain control: `initRnnoiseModule`, or `processUseRnnoise` with up to 480 samples of
each channel. -/
inductive RnnCall
  | init
  | process (samples : Fin (rnnFrameSize + 1)) (data : ℕ → Int16)

/-- The module after a call, if it succeeds. -/
def RnnCall.step (rnn : FrameProc F V) (channels : ℤ) (m : ApmNs F V) : RnnCall → Option (ApmNs F V)
  | .init => (initRnnoiseModule m 48000 480 channels false).bind fun r => if r.1 then some r.2 else none
  | .process samples data => (processUseRnnoise rnn m data (samples : ℕ) channels).map Prod.snd

/-- The module after a sequence of calls. -/
def playRnn (rnn : FrameProc F V) (channels : ℤ) (m : ApmNs F V) (calls : List RnnCall) : Option (ApmNs F V) :=
  calls.foldlM (RnnCall.step rnn channels) m

/-- A short frame shows nothing of what earlier calls left: two modules whose denoisers are in the same states give
the same samples for the same frame of `n` samples, whatever calls came after their set-up. -/
def NoLeftover (F : Type) [CFloat F] (V : Vendor) (channels : ℤ) (n : ℕ) : Prop :=
  ∀ (rnn : FrameProc F V) (m₀ m₀' m m' : ApmNs F V) (past past' : List RnnCall),
    m₀.captureBuffer = none → m₀'.captureBuffer = none →
    playRnn rnn channels m₀ (.init :: past) = some m → playRnn rnn channels m₀' (.init :: past') = some m' →
    m.rnnoiseHandles = m'.rnnoiseHandles → ∀ data,
      (processUseRnnoise rnn m data n channels).map Prod.fst = (processUseRnnoise rnn m' data n channels).map Prod.fst

/-! ## Between two calls -/

/-- The module has a row of 480 samples and a denoiser for each channel, and no gain control. -/
structure Ready (channels : ℤ) (m : ApmNs F V) : Prop where
  buffer : ∃ b, m.captureBuffer = some b ∧ b.HasRows channels.toNat rnnFrameSize
  doAgc : m.doAgc = false
  handles : channels.toNat ≤ m.rnnoiseHandles.length

section Ready

variable {channels : ℤ} {m m' : ApmNs F V} {rnn : FrameProc F V}

omit [CFloat F] in
/-- Without gain control every channel gets a denoiser. -/
theorem initRnnoiseLoop_noAgc (frequency n : ℕ) (m : ApmNs F V) :
    forLoop 0 n (initRnnoiseChannel frequency false) (true, m) =
      (true, { m with rnnoiseHandles := m.rnnoiseHandles ++ (List.range n).map V.rnnoiseCreate }) := by
  induction n with
  | zero => simp [forLoop_self]
  | succ n ih =>
      rw [forLoop_succ (Nat.zero_le n), ih]
      simp [initRnnoiseChannel, List.range_succ]

/-- What `initRnnoiseModule` makes of a module that has, or gets, the buffer `b`. -/
def ApmNs.withRnnoise (m : ApmNs F V) (channels : ℤ) (b : AudioBuffer F V) : ApmNs F V :=
  { m with
    captureBuffer := some b
    frequency := 48000
    channels := channels
    doAgc := false
    rnnoiseHandles := m.rnnoiseHandles ++ (List.range channels.toNat).map V.rnnoiseCreate }

theorem step_init (rnn : FrameProc F V) (channels : ℤ) (m : ApmNs F V) :
    RnnCall.init.step rnn channels m = (rnnoiseBuffer m 480 channels).map (m.withRnnoise channels) := by
  have hok : ¬ ((48000 : ℕ) ≠ 48000 ∨ (480 : ℤ) ≠ 480) := by decide
  rw [RnnCall.step, initRnnoiseModule, if_neg hok]
  cases rnnoiseBuffer m 480 channels with
  | none => rfl
  | some b =>
      simp only [Option.bind_eq_bind, Option.bind_some, Option.pure_def, initRnnoiseLoop_noAgc]
      rfl

theorem Ready.init (hm : m.captureBuffer = none ∨ Ready channels m)
    (hinit : RnnCall.init.step rnn channels m = some m') : Ready channels m' := by
  rw [step_init] at hinit
  obtain ⟨b, hb, rfl⟩ := Option.map_eq_some_iff.mp hinit
  have hrows : b.HasRows channels.toNat rnnFrameSize := by
    unfold rnnoiseBuffer at hb
    rcases hm with hnew | hready
    · rw [hnew] at hb
      simp only at hb
      split_ifs at hb
      obtain rfl := Option.some.inj hb
      exact (buffer480_create channels.toNat).hasRows
    · obtain ⟨b', hb', hrows⟩ := hready.buffer
      rw [hb'] at hb
      obtain rfl := Option.some.inj hb
      exact hrows
  refine ⟨⟨b, rfl, hrows⟩, rfl, ?_⟩
  simp [ApmNs.withRnnoise]

theorem Ready.process (hm : Ready channels m) {n : ℕ} (hn : n ≤ rnnFrameSize) (data : ℕ → Int16) :
    ∃ out m', processUseRnnoise rnn m data n channels = some (out, m') ∧ Ready channels m' := by
  obtain ⟨b, hb, hrows⟩ := hm.buffer
  obtain ⟨m', b', hcall, hb', hdo, hrows', -, hhandles⟩ :=
    processUseRnnoise_noAgc rnn hb hm.doAgc hrows hm.handles hn data
  refine ⟨_, m', hcall, ⟨b', hb', hrows'⟩, hdo, ?_⟩
  rw [hhandles, denoisedHandles, List.length_mapIdx]
  exact hm.handles

theorem Ready.play (hm : Ready channels m) {calls : List RnnCall} (hplay : playRnn rnn channels m calls = some m') :
    Ready channels m' := by
  induction calls generalizing m with
  | nil => exact Option.some.inj hplay ▸ hm
  | cons a calls ih =>
      rw [playRnn, List.foldlM_cons] at hplay
      obtain ⟨m₁, hstep, hrest⟩ := Option.bind_eq_some_iff.mp hplay
      refine ih ?_ hrest
      cases a with
      | init => exact Ready.init (.inr hm) hstep
      | process samples data =>
          obtain ⟨out, m₂, hcall, hready⟩ := Ready.process (F := F) hm (Nat.le_of_lt_succ samples.2) data
          rw [RnnCall.step, hcall] at hstep
          exact Option.some.inj hstep ▸ hready

/-- Every module that was set up is ready, after any calls. -/
theorem ready_of_setUp {m₀ : ApmNs F V} (hnew : m₀.captureBuffer = none) {past : List RnnCall}
    (hplay : playRnn rnn channels m₀ (.init :: past) = some m) : Ready channels m := by
  rw [playRnn, List.foldlM_cons] at hplay
  obtain ⟨m₁, hstep, hrest⟩ := Option.bind_eq_some_iff.mp hplay
  exact (Ready.init (.inl hnew) hstep).play hrest

end Ready

/-! ## Whole frames -/

section Whole

variable {rnn : FrameProc F V} {handles : List V.Rnn} {k : ℕ}

/-- The denoiser reads and writes the first 480 samples of a row. -/
theorem denoisedRows_congr {x x' : ℕ → ℕ → Int16} (h : ∀ ch < k, ∀ j < rnnFrameSize, x ch j = x' ch j) :
    ∀ ch < k, ∀ j < rnnFrameSize, denoisedRows rnn handles x k ch j = denoisedRows rnn handles x' k ch j := by
  intro ch hch j hj
  simp only [denoisedRows, if_pos hch]
  cases handles[ch]? with
  | none => exact h ch hch j hj
  | some handle =>
      have hframe : (fun i : Fin rnnFrameSize => (shortToFloat (x ch i) : F)) =
          fun i : Fin rnnFrameSize => shortToFloat (x' ch i) :=
        funext fun i => by rw [h ch hch i i.2]
      simp only [denoiseRow, writeRow, dif_pos hj, hframe]

/-- **Nothing is left over** of a call that brings 480 samples, none, or no channel. -/
theorem noLeftover_of {channels : ℤ} {n : ℕ} (hn : n ≤ rnnFrameSize) (h : channels ≤ 0 ∨ n = 0 ∨ n = rnnFrameSize) :
    NoLeftover F V channels n := by
  intro rnn m₀ m₀' m m' past past' hnew hnew' hplay hplay' hhandles data
  have hready := ready_of_setUp hnew hplay
  have hready' := ready_of_setUp hnew' hplay'
  obtain ⟨b, hb, hrows⟩ := hready.buffer
  obtain ⟨b', hb', hrows'⟩ := hready'.buffer
  obtain ⟨m₁, -, hcall, -⟩ := processUseRnnoise_noAgc rnn hb hready.doAgc hrows hready.handles hn data
  obtain ⟨m₁', -, hcall', -⟩ := processUseRnnoise_noAgc rnn hb' hready'.doAgc hrows' hready'.handles hn data
  rw [hcall, hcall', Option.map_some, Option.map_some, ← hhandles]
  refine congrArg some (interleavedRows_congr (fun ch hch j hj => ?_) data)
  rcases h with hneg | rfl | rfl
  · omega
  · exact absurd hj (Nat.not_lt_zero j)
  · refine denoisedRows_congr (fun ch hch j hj => ?_) ch hch j hj
    rw [deinterleaved, deinterleaved, if_pos ⟨hch, hj⟩, if_pos ⟨hch, hj⟩]

end Whole

/-! ## Short frames -/

section Short

/-- The place of the last sample of a frame. -/
def lastSample : Fin rnnFrameSize := ⟨479, by decide⟩

/-- A denoiser without a state that repeats the last sample of its frame. -/
def lastProc : FrameProc F V := fun handle x => (handle, fun _ => x lastSample)

/-- A sample that goes to floating point comes back the same. -/
theorem floatToShort_shortToFloat [ExactHalves F] (v : Int16) : floatToShort (shortToFloat v : F) = v := by
  have hlt := v.toInt_lt
  have hle := v.le_toInt
  have hhalf : Half (v.toInt : ℚ) := half_of_int (abs_le.mpr ⟨by omega, by omega⟩)
  rw [floatToShort, shortToFloat, ExactHalves.trunc hhalf, truncRat_intCast, Int16.ofInt_toInt]

theorem denoisedRows_lastProc [ExactHalves F] {handles : List V.Rnn} {x : ℕ → ℕ → Int16} {k ch j : ℕ} (hch : ch < k)
    (hlen : k ≤ handles.length) (hj : j < rnnFrameSize) :
    denoisedRows (lastProc (F := F)) handles x k ch j = x ch 479 := by
  have hget : handles[ch]? = some handles[ch] := List.getElem?_eq_getElem (hch.trans_le hlen)
  simp only [denoisedRows, if_pos hch, hget, denoiseRow, writeRow, dif_pos hj, lastProc, lastSample,
    floatToShort_shortToFloat]

theorem denoisedHandles_lastProc (handles : List V.Rnn) (x : ℕ → ℕ → Int16) (k : ℕ) :
    denoisedHandles (lastProc (F := F)) handles x k = handles := by
  apply List.ext_getElem?
  intro ch
  simp [denoisedHandles, denoiseRow, lastProc]

/-- A new object. -/
def blankApm (F : Type) [CFloat F] (V : Vendor) : ApmNs F V := ⟨[], [], [], none, 0, 0, false, fun _ => ofRat 0⟩

variable [ExactHalves F] {channels : ℤ}

/-- A module whose first row holds `v` in its last place, after a whole frame. -/
theorem exists_leftover (F : Type) [CFloat F] [ExactHalves F] (V : Vendor) (hpos : 0 < channels) (v : Int16) :
    ∃ (m : ApmNs F V) (b : AudioBuffer F V),
      playRnn lastProc channels (blankApm F V) [.init, .process (Fin.last rnnFrameSize) fun _ => v] = some m ∧
      m.captureBuffer = some b ∧ b.HasRows channels.toNat rnnFrameSize ∧ m.doAgc = false ∧
      m.rnnoiseHandles = (List.range channels.toNat).map V.rnnoiseCreate ∧ b.channels.ints 0 479 = v := by
  have hnonneg : ¬ channels < 0 := by omega
  let b₀ : AudioBuffer F V := AudioBuffer.create V rnnFrameSize channels.toNat
  have hinit : RnnCall.init.step lastProc channels (blankApm F V) = some ((blankApm F V).withRnnoise channels b₀) := by
    have hbuffer : rnnoiseBuffer (blankApm F V) 480 channels = some b₀ := if_neg hnonneg
    rw [step_init, hbuffer]
    rfl
  have hready := Ready.init (.inl rfl) hinit
  have hrows : b₀.HasRows channels.toNat rnnFrameSize := (buffer480_create channels.toNat).hasRows
  obtain ⟨m, b, hcall, hb, hdo, hrows', hints, hhandles⟩ :=
    processUseRnnoise_noAgc lastProc rfl hready.doAgc hrows hready.handles le_rfl fun _ => v
  refine ⟨m, b, ?_, hb, hrows', hdo, ?_, ?_⟩
  · have hstep : (RnnCall.process (Fin.last rnnFrameSize) fun _ => v).step lastProc channels
        ((blankApm F V).withRnnoise channels b₀) = some m := by
      rw [RnnCall.step, Fin.val_last, hcall]
      rfl
    rw [playRnn, List.foldlM_cons, hinit, Option.bind_eq_bind, Option.bind_some, List.foldlM_cons, hstep]
    rfl
  · rw [hhandles, denoisedHandles_lastProc]
    exact List.nil_append _
  · rw [hints, denoisedRows_lastProc (by omega) hready.handles (by decide)]
    exact if_pos ⟨by omega, by decide⟩

/-- **A short frame is mixed with what an earlier call left.** -/
theorem leftover_of_short {n : ℕ} (hpos : 0 < channels) (h₀ : 0 < n) (hn : n < rnnFrameSize) :
    ¬ NoLeftover F V channels n := by
  intro h
  have hframe : ¬ 479 < n := by
    unfold rnnFrameSize at hn
    omega
  -- the first sample that comes back is the last one of the earlier frame
  have hfirst : ∀ v : Int16, ∃ (m : ApmNs F V) (out : ℕ → Int16),
      playRnn lastProc channels (blankApm F V) [.init, .process (Fin.last rnnFrameSize) fun _ => v] = some m ∧
      m.rnnoiseHandles = (List.range channels.toNat).map V.rnnoiseCreate ∧
      (processUseRnnoise lastProc m (fun _ => 0) n channels).map Prod.fst = some out ∧ out 0 = v := by
    intro v
    obtain ⟨m, b, hplay, hb, hrows, hdo, hhandles, hlast⟩ := exists_leftover F V hpos v
    have hlen : channels.toNat ≤ m.rnnoiseHandles.length := by simp [hhandles]
    obtain ⟨m', -, hcall, -⟩ := processUseRnnoise_noAgc lastProc hb hdo hrows hlen hn.le fun _ => 0
    refine ⟨m, _, hplay, hhandles, by rw [hcall, Option.map_some], ?_⟩
    dsimp only
    rw [interleavedRows_zero (by omega) h₀, denoisedRows_lastProc (by omega) hlen (by decide), deinterleaved,
      if_neg fun hp => hframe hp.2, hlast]
  obtain ⟨m, out, hplay, hhandles, hout, hv⟩ := hfirst 0
  obtain ⟨m', out', hplay', hhandles', hout', hv'⟩ := hfirst 1
  have heq := h (lastProc (F := F)) _ _ m m' _ _ rfl rfl hplay hplay' (hhandles.trans hhandles'.symm) fun _ => 0
  rw [hout, hout'] at heq
  rw [← Option.some.inj heq, hv] at hv'
  exact absurd hv' (by decide)

end Short

/-- **Short frames see leftover audio**: only calls that bring whole frames, or nothing, do not. -/
theorem noLeftover_iff (F : Type) [CFloat F] [ExactHalves F] (V : Vendor) (channels : ℤ) {n : ℕ}
    (hn : n ≤ rnnFrameSize) : NoLeftover F V channels n ↔ channels ≤ 0 ∨ n = 0 ∨ n = rnnFrameSize := by
  refine ⟨fun h => ?_, noLeftover_of hn⟩
  by_contra hshort
  exact leftover_of_short (by omega) (by omega) (by omega) h

theorem noLeftover_iff_mono : NoLeftover ℝ plainVendor 1 160 ↔ (1 : ℤ) ≤ 0 ∨ 160 = 0 ∨ 160 = rnnFrameSize :=
  noLeftover_iff ℝ plainVendor 1 (by decide)

/-- A last frame of 160 samples. -/
theorem not_noLeftover_mono : ¬ ∀ (channels : ℤ) (n : ℕ), n ≤ rnnFrameSize → NoLeftover ℝ plainVendor channels n := by
  intro h
  exact leftover_of_short (by decide) (by decide) (by decide) (h 1 160 (by decide))

end AudioProcess
