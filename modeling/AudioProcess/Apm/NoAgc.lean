import AudioProcess.Apm.Rows

/-!
# `processUseRnnoise` without gain control

Every channel is denoised on its own: its row of the capture buffer goes through its denoiser, 480 samples of it
whatever the number of samples of the call.

* `denoiseRow`; `denoisedRows`: the rows that a call leaves;
* **`processUseRnnoise_noAgc`**: the samples, the denoisers and the buffer after a call.
-/

namespace AudioProcess

open CFloat CLoop Mem

variable {F : Type} [CFloat F] {V : Vendor}

/-- The denoiser on a row: its state and the row after it. -/
def denoiseRow (rnn : FrameProc F V) (handle : V.Rnn) (row : ℕ → Int16) : V.Rnn × (ℕ → Int16) :=
  let r := rnn handle fun i => shortToFloat (row i)
  (r.1, writeRow (fun i => floatToShort (r.2 i)) row)

/-- The rows `x` with the first `k` of them denoised. -/
def denoisedRows (rnn : FrameProc F V) (handles : List V.Rnn) (x : ℕ → ℕ → Int16) (k ch : ℕ) : ℕ → Int16 :=
  if ch < k then
    match handles[ch]? with
    | some handle => (denoiseRow rnn handle (x ch)).2
    | none => x ch
  else x ch

/-- The denoisers after their first `k` rows. -/
def denoisedHandles (rnn : FrameProc F V) (handles : List V.Rnn) (x : ℕ → ℕ → Int16) (k : ℕ) : List V.Rnn :=
  handles.mapIdx fun ch handle => if ch < k then (denoiseRow rnn handle (x ch)).1 else handle

section Rows

variable {rnn : FrameProc F V} {handles : List V.Rnn} {x : ℕ → ℕ → Int16} {k : ℕ} {handle : V.Rnn}

theorem denoisedRows_zero : denoisedRows rnn handles x 0 = x := by
  funext ch
  exact if_neg (Nat.not_lt_zero ch)

theorem denoisedRows_succ (h : handles[k]? = some handle) :
    denoisedRows rnn handles x (k + 1) =
      Function.update (denoisedRows rnn handles x k) k (denoiseRow rnn handle (x k)).2 := by
  funext ch
  by_cases hch : ch = k
  · subst hch
    simp [denoisedRows, h]
  · rw [Function.update_of_ne hch]
    unfold denoisedRows
    exact if_congr (by omega) rfl rfl

theorem denoisedHandles_zero : denoisedHandles rnn handles x 0 = handles := by
  apply List.ext_getElem?
  intro ch
  simp [denoisedHandles]

theorem denoisedHandles_succ (h : handles[k]? = some handle) :
    denoisedHandles rnn handles x (k + 1) =
      (denoisedHandles rnn handles x k).set k (denoiseRow rnn handle (x k)).1 := by
  apply List.ext_getElem?
  intro ch
  unfold denoisedHandles
  rw [List.getElem?_set', List.getElem?_mapIdx, List.getElem?_mapIdx]
  by_cases hch : k = ch
  · subst hch
    simp [h]
  · rw [if_neg hch]
    refine congrArg (fun f => handles[ch]?.map f) (funext fun handle => ?_)
    exact if_congr (by omega) rfl rfl

end Rows

/-! ## A call -/

variable {b : AudioBuffer F V} {m : ApmNs F V} {n : ℕ}

/-- The denoiser on a channel that has a row and a handle. -/
theorem rnnoiseChannel_eq (rnn : FrameProc F V) {t : Turn F V} {ch : ℕ} {handle : V.Rnn}
    (hrows : t.buffer.HasRows n rnnFrameSize) (hch : ch < n) (hhandle : t.apm.rnnoiseHandles[ch]? = some handle) :
    rnnoiseChannel rnn ch t = some { t with
      apm := { t.apm with
        rnnoiseHandles := t.apm.rnnoiseHandles.set ch (denoiseRow rnn handle (t.buffer.channels.ints ch)).1
        rnnBuf := (rnn handle fun i => shortToFloat (t.buffer.channels.ints ch i)).2 }
      buffer := t.buffer.withRows (Function.update t.buffer.channels.ints ch
        (denoiseRow rnn handle (t.buffer.channels.ints ch)).2) } := by
  rw [rnnoiseChannel, AudioBuffer.data_eq hrows hch]
  simp only [Option.bind_eq_bind, Option.bind_some, hhandle]
  rfl

/-- The loop over the channels, after `k` of them. -/
structure NoAgcTurn (rnn : FrameProc F V) (m : ApmNs F V) (b : AudioBuffer F V) (n k : ℕ) (t : Turn F V) : Prop where
  rows : t.buffer.HasRows n rnnFrameSize
  ints : t.buffer.channels.ints = denoisedRows rnn m.rnnoiseHandles b.channels.ints k
  handles : t.apm.rnnoiseHandles = denoisedHandles rnn m.rnnoiseHandles b.channels.ints k
  doAgc : t.apm.doAgc = false

variable {rnn : FrameProc F V}

theorem NoAgcTurn.step {k : ℕ} {t : Turn F V} (h : NoAgcTurn rnn m b n k t) (hk : k < n)
    (hlen : n ≤ m.rnnoiseHandles.length) :
    ∃ t', processChannel rnn k t = some t' ∧ NoAgcTurn rnn m b n (k + 1) t' := by
  have hget : m.rnnoiseHandles[k]? = some m.rnnoiseHandles[k] := List.getElem?_eq_getElem (hk.trans_le hlen)
  have hhandle : t.apm.rnnoiseHandles[k]? = some m.rnnoiseHandles[k] := by
    rw [h.handles, denoisedHandles, List.getElem?_mapIdx, hget]
    exact congrArg some (if_neg (lt_irrefl k))
  have hrow : t.buffer.channels.ints k = b.channels.ints k := by
    rw [h.ints]
    exact if_neg (lt_irrefl k)
  have hcall : processChannel rnn k t = rnnoiseChannel rnn k t := by
    rw [processChannel_eq, if_neg (by rw [h.doAgc]; exact Bool.false_ne_true), Option.bind_some]
  refine ⟨_, hcall.trans (rnnoiseChannel_eq rnn h.rows hk hhandle), ?_⟩
  rw [hrow]
  refine ⟨h.rows.withRows _, ?_, ?_, h.doAgc⟩
  · rw [AudioBuffer.ints_withRows, h.ints, denoisedRows_succ hget]
  · rw [denoisedHandles_succ hget, ← h.handles]

variable (rnn) in
/-- **A call without gain control.** -/
theorem processUseRnnoise_noAgc {samples : ℕ} {channels : ℤ} (hb : m.captureBuffer = some b) (hdo : m.doAgc = false)
    (hrows : b.HasRows channels.toNat rnnFrameSize) (hlen : channels.toNat ≤ m.rnnoiseHandles.length)
    (hsamples : samples ≤ rnnFrameSize) (data : ℕ → Int16) :
    ∃ m' b', processUseRnnoise rnn m data samples channels =
        some (interleavedRows samples channels.toNat (denoisedRows rnn m.rnnoiseHandles
          (deinterleaved data samples channels.toNat b.channels.ints) channels.toNat) data, m') ∧
      m'.captureBuffer = some b' ∧ m'.doAgc = false ∧ b'.HasRows channels.toNat rnnFrameSize ∧
      b'.channels.ints = denoisedRows rnn m.rnnoiseHandles
        (deinterleaved data samples channels.toNat b.channels.ints) channels.toNat ∧
      m'.rnnoiseHandles = denoisedHandles rnn m.rnnoiseHandles
        (deinterleaved data samples channels.toNat b.channels.ints) channels.toNat := by
  have hsplits : ¬ m.Splits := fun h => Bool.false_ne_true (hdo.symm.trans h.1)
  have hshort : ∀ {b : AudioBuffer F V}, b.HasRows channels.toNat rnnFrameSize → b.HasRows channels.toNat samples :=
    fun hrows ch hch => ⟨(hrows ch hch).1, hsamples.trans (hrows ch hch).2⟩
  let x := deinterleaved data samples channels.toNat b.channels.ints
  let b₁ : AudioBuffer F V := b.filled channels.toNat x
  have hx : b₁.channels.ints = x := AudioBuffer.ints_filled fun hzero => by
    simp only [x, hzero, deinterleaved_zero]
  obtain ⟨t, ht, hturn⟩ : ∃ t, forLoopM 0 channels.toNat (processChannel rnn) ⟨m, b₁, 0, 0⟩ = some t ∧
      NoAgcTurn rnn m b₁ channels.toNat channels.toNat t := by
    refine forLoopM_induction (NoAgcTurn rnn m b₁ channels.toNat) (Nat.zero_le _) ?_ fun k t _ hk h => h.step hk hlen
    exact ⟨hrows.filled _ _, denoisedRows_zero.symm, denoisedHandles_zero.symm, hdo⟩
  have hints := hturn.ints
  have hhandles := hturn.handles
  rw [hx] at hints hhandles
  refine ⟨{ t.apm with captureBuffer := some (t.buffer.filled channels.toNat t.buffer.channels.ints) },
    t.buffer.filled channels.toNat t.buffer.channels.ints, ?_, rfl, hturn.doAgc, hturn.rows.filled _ _, ?_, hhandles⟩
  · rw [processUseRnnoise_bind, hb, Option.bind_some, Int.toNat_natCast, deinterleave_eq data (hshort hrows),
      Option.bind_some, if_neg hsplits, Option.bind_some, ht, Option.bind_some, if_neg hsplits, Option.bind_some,
      interleave_eq id data (hshort hturn.rows), Option.bind_some, ← hints]
    rfl
  · rw [AudioBuffer.ints_filled fun _ => rfl, hints]

end AudioProcess
