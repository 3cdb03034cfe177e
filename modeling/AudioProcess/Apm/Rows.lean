import AudioProcess.Apm.Ns

/-!
# The rows of the capture buffer

What the loops of a call that copy between the interleaved samples and the capture buffer leave.

* `ints`: the integer samples that `ibuf()` and `ibuf_const()` give; `HasRows`, `withRows`, `filled`;
* `deinterleaved`, `deinterleave_eq`: the buffer after the first loop;
* `interleavedRows`, `interleave_eq`: the samples after the last one.
-/

namespace AudioProcess

open CLoop

variable {F : Type} [CFloat F]

namespace IFChannelBuffer

/-- The samples as integers. -/
def ints (s : IFChannelBuffer F) : ℕ → ℕ → Int16 := s.ibufConst.ibufData

variable (s : IFChannelBuffer F)

@[simp] theorem ibufData_ibufConst : s.ibufConst.ibufData = s.ints := rfl

variable {s}

theorem ints_of_ivalid (h : s.ivalid = true) : s.ints = s.ibufData := by
  unfold ints ibufConst refreshI
  rw [if_pos h]

/-- New samples in the buffer that `ibuf()` gave. -/
@[simp] theorem ints_ibuf_with (x : ℕ → ℕ → Int16) : ints { s.ibuf with ibufData := x } = x :=
  ints_of_ivalid s.ivalid_ibuf

theorem ivalid_ibufConst : s.ibufConst.ivalid = true := s.ivalid_ibuf

@[simp] theorem ints_ibufConst : s.ibufConst.ints = s.ints := ints_of_ivalid s.ivalid_ibufConst

end IFChannelBuffer

namespace AudioBuffer

variable {V : Vendor} {b : AudioBuffer F V} {n samples : ℕ}

omit [CFloat F] in
/-- The buffer has `n` rows of `samples` samples. -/
def HasRows (b : AudioBuffer F V) (n samples : ℕ) : Prop := ∀ ch < n, b.channels.Has ch samples

/-- The buffer with the full band `rows`, in integers. -/
def withRows (b : AudioBuffer F V) (rows : ℕ → ℕ → Int16) : AudioBuffer F V :=
  { b with channels := { b.channels.ibuf with ibufData := rows } }

@[simp] theorem ints_withRows (rows : ℕ → ℕ → Int16) : (b.withRows rows).channels.ints = rows :=
  IFChannelBuffer.ints_ibuf_with rows

@[simp] theorem ibufData_withRows (rows : ℕ → ℕ → Int16) : (b.withRows rows).channels.ibufData = rows := rfl

theorem HasRows.withRows (h : b.HasRows n samples) (rows : ℕ → ℕ → Int16) : (b.withRows rows).HasRows n samples := by
  intro ch hch
  have hrow := h ch hch
  unfold IFChannelBuffer.Has at hrow ⊢
  simpa [AudioBuffer.withRows] using hrow

theorem withRows_withRows (rows rows' : ℕ → ℕ → Int16) : (b.withRows rows).withRows rows' = b.withRows rows' := by
  have h : ({ b.channels.ibuf with ibufData := rows } : IFChannelBuffer F).refreshI =
      { b.channels.ibuf with ibufData := rows } := if_pos b.channels.ivalid_ibuf
  unfold AudioBuffer.withRows
  unfold IFChannelBuffer.ibuf at h ⊢
  rw [h]

/-- The buffer after a loop over `n` channels that leaves the full band `rows`. -/
def filled (b : AudioBuffer F V) (n : ℕ) (rows : ℕ → ℕ → Int16) : AudioBuffer F V :=
  if n = 0 then b else b.withRows rows

theorem filled_succ (k : ℕ) (rows : ℕ → ℕ → Int16) : b.filled (k + 1) rows = b.withRows rows :=
  if_neg (Nat.succ_ne_zero k)

theorem HasRows.filled (h : b.HasRows n samples) (k : ℕ) (rows : ℕ → ℕ → Int16) :
    (b.filled k rows).HasRows n samples := by
  unfold AudioBuffer.filled
  split_ifs
  · exact h
  · exact h.withRows rows

theorem ints_filled {k : ℕ} {rows : ℕ → ℕ → Int16} (hzero : k = 0 → rows = b.channels.ints) :
    (b.filled k rows).channels.ints = rows := by
  unfold AudioBuffer.filled
  split_ifs with hk
  · exact (hzero hk).symm
  · exact ints_withRows rows

theorem withRows_filled (k : ℕ) (rows rows' : ℕ → ℕ → Int16) :
    (b.filled k rows).withRows rows' = b.withRows rows' := by
  unfold AudioBuffer.filled
  split_ifs
  · rfl
  · exact withRows_withRows rows rows'

theorem data_eq (h : b.HasRows n samples) {ch : ℕ} (hch : ch < n) :
    b.data ch samples = some (b.withRows b.channels.ints) := if_pos (h ch hch)

end AudioBuffer

/-! ## In -/

section In

variable {V : Vendor} {b : AudioBuffer F V} {n samples : ℕ}

/-- The rows `x` with the interleaved samples `data` in the first `samples` places of the first `n`. -/
def deinterleaved (data : ℕ → Int16) (samples n : ℕ) (x : ℕ → ℕ → Int16) (ch j : ℕ) : Int16 :=
  if ch < n ∧ j < samples then data (ch + n * j) else x ch j

theorem deinterleaved_zero (data : ℕ → Int16) (x : ℕ → ℕ → Int16) : deinterleaved data samples 0 x = x := by
  funext ch j
  exact if_neg fun h => absurd h.1 (Nat.not_lt_zero ch)

theorem deinterleaveChannel_eq (data : ℕ → Int16) (h : b.HasRows n samples) {i : ℕ} (hi : i < n) :
    deinterleaveChannel data samples n i b = some (b.withRows (Function.update b.channels.ints i fun j =>
      if j < samples then data (i + n * j) else b.channels.ints i j)) := by
  rw [deinterleaveChannel, AudioBuffer.data_eq h hi]
  simp only [Option.bind_eq_bind, Option.bind_some, Option.pure_def, AudioBuffer.withRows]
  rw [forLoop_set]
  rfl

/-- **The buffer after the loop** over the channels that reads the samples. -/
theorem deinterleave_eq (data : ℕ → Int16) (h : b.HasRows n samples) :
    forLoopM 0 n (deinterleaveChannel data samples n) b =
      some (b.filled n (deinterleaved data samples n b.channels.ints)) := by
  let rows (k : ℕ) (ch j : ℕ) : Int16 :=
    if ch < k ∧ j < samples then data (ch + n * j) else b.channels.ints ch j
  have hzero : ∀ k, k = 0 → rows k = b.channels.ints := by
    rintro k rfl
    funext ch j
    exact if_neg fun h => absurd h.1 (Nat.not_lt_zero ch)
  have hnext : ∀ i, (Function.update (rows i) i fun j => if j < samples then data (i + n * j) else rows i i j) =
      rows (i + 1) := by
    intro i
    funext ch j
    by_cases hch : ch = i
    · subst hch
      simp [rows]
    · rw [Function.update_of_ne hch]
      exact if_congr (by omega) rfl rfl
  obtain ⟨b', hb', rfl⟩ : ∃ b', forLoopM 0 n (deinterleaveChannel data samples n) b = some b' ∧
      b' = b.filled n (rows n) := by
    refine forLoopM_induction (fun k b' => b' = b.filled k (rows k)) (Nat.zero_le n) rfl ?_
    rintro i b' - hi rfl
    refine ⟨_, deinterleaveChannel_eq data (h.filled i (rows i)) hi, ?_⟩
    rw [AudioBuffer.ints_filled (hzero i), AudioBuffer.withRows_filled, hnext, AudioBuffer.filled_succ]
  exact hb'

end In

/-! ## Out -/

section Out

variable {V : Vendor} {b : AudioBuffer F V} {n samples : ℕ} {α : Type}

/-- The rows `y` interleaved over the first `samples * n` of `data`. -/
def interleavedRows (samples n : ℕ) (y : ℕ → ℕ → α) (data : ℕ → α) (p : ℕ) : α :=
  if p < n * samples then y (p % n) (p / n) else data p

theorem interleavedRows_apply {y : ℕ → ℕ → α} {data : ℕ → α} {ch j : ℕ} (hch : ch < n) (hj : j < samples) :
    interleavedRows samples n y data (ch + n * j) = y ch j := by
  have hlt : ch + n * j < n * samples := by
    have := Nat.mul_le_mul_left n (Nat.succ_le_of_lt hj)
    rw [Nat.mul_succ] at this
    omega
  rw [interleavedRows, if_pos hlt, Nat.add_mul_mod_self_left, Nat.mod_eq_of_lt hch, Nat.add_mul_div_left _ _ (by omega),
    Nat.div_eq_of_lt hch, Nat.zero_add]

theorem interleavedRows_zero {y : ℕ → ℕ → α} {data : ℕ → α} (hn : 0 < n) (hsamples : 0 < samples) :
    interleavedRows samples n y data 0 = y 0 0 := by
  rw [interleavedRows, if_pos (Nat.mul_pos hn hsamples), Nat.zero_mod, Nat.zero_div]

/-- Only the frame of the rows is written. -/
theorem interleavedRows_congr {y y' : ℕ → ℕ → α} (h : ∀ ch < n, ∀ j < samples, y ch j = y' ch j) (data : ℕ → α) :
    interleavedRows samples n y data = interleavedRows samples n y' data := by
  funext p
  unfold interleavedRows
  split_ifs with hp
  · have hpos : 0 < n := Nat.pos_of_ne_zero fun h0 => by
      rw [h0, Nat.zero_mul] at hp
      exact Nat.not_lt_zero p hp
    exact h _ (Nat.mod_lt p hpos) _ (Nat.div_lt_of_lt_mul hp)
  · rfl

/-- **The samples after the loop** over the channels that writes them. -/
theorem interleave_eq (store : Int16 → α) (data : ℕ → α) (h : b.HasRows n samples) :
    forLoopM 0 n (interleaveChannelWith store samples n) (b, data) = some (b.filled n b.channels.ints,
      interleavedRows samples n (fun ch j => store (b.channels.ints ch j)) data) := by
  let row (i : ℕ) (m : ℕ → α) : ℕ → α :=
    forLoop 0 samples (fun j m => Function.update m (i + n * j) (store (b.channels.ints i j))) m
  obtain ⟨r, hr, rfl⟩ : ∃ r, forLoopM 0 n (interleaveChannelWith store samples n) (b, data) = some r ∧
      r = (b.filled n b.channels.ints, forLoop 0 n row data) := by
    refine forLoopM_induction (fun k r => r = (b.filled k b.channels.ints, forLoop 0 k row data))
      (Nat.zero_le n) rfl ?_
    rintro i r - hi rfl
    have hopen : (b.filled i b.channels.ints).withRows (b.filled i b.channels.ints).channels.ints =
        b.filled (i + 1) b.channels.ints := by
      rw [AudioBuffer.ints_filled fun _ => rfl, AudioBuffer.withRows_filled, AudioBuffer.filled_succ]
    have hints : (b.filled (i + 1) b.channels.ints).channels.ibufData = b.channels.ints := by
      rw [AudioBuffer.filled_succ]
      rfl
    refine ⟨_, by rw [interleaveChannelWith, AudioBuffer.data_eq (h.filled i b.channels.ints) hi]; rfl, ?_⟩
    simp only [hopen, hints, forLoop_succ (Nat.zero_le i), row]
  rw [hr]
  exact congrArg some (Prod.ext rfl (forLoop_interleave n samples _ data))

end Out

end AudioProcess
