import AudioProcess.Highpass.Convolution
import AudioProcess.Lib.Bytes
import AudioProcess.Lib.ExtFloat

/-!
# What `initFilter` leaves of the history

The `memset` of `initFilter` clears thirty of the sixty bytes of `w`: `w[0]` to `w[6]` and, little-endian,
the low half of `w[7]`.

* `loadFloat`: four bytes as a `float`; `initFilter_w`: the register after `initFilter`;
* `TailZero`: the bytes that the `memset` misses hold zeros; `initFilter_w_eq_zero`;
* `Forgets`: the filters answer as from an empty register; `history_of_outputs`: on silence the outputs
  uncover the register cell by cell;
* **`forgets_iff`**.
-/

namespace AudioProcess

open Bytes CFloat CLoop ExtFloat Mem

/-- The value of a `float` in four bytes. -/
noncomputable def loadFloat (bs : List UInt8) : ExtFloat := ExtFloat.ofBits (leNat bs)

/-- The bits of `w[j]`. -/
def wordAt (raw : ℕ → UInt8) (j : ℕ) : ℕ := leNat (readCells raw (sizeofFloat * j) sizeofFloat)

/-- What the `memset` misses holds zeros only: the upper half of `w[7]` and all of `w[8]`, …, `w[14]`, but
for the signs. -/
structure TailZero (raw : ℕ → UInt8) : Prop where
  half : wordAt raw 7 / 2 ^ 16 % 2 ^ 15 = 0
  rest : ∀ j, 8 ≤ j → j < coefLen → wordAt raw j % 2 ^ 31 = 0

variable {raw : ℕ → UInt8}

/-! ## The register after `initFilter` -/

theorem leNat_cells (mem : ℕ → UInt8) (off : ℕ) : leNat (readCells mem off sizeofFloat) =
    (mem off).toNat + 256 * ((mem (off + 1)).toNat + 256 * ((mem (off + 2)).toNat +
      256 * (mem (off + 3)).toNat)) := rfl

theorem initFilter_w (raw : ℕ → UInt8) (j : ℕ) : (initFilter loadFloat raw).w j =
    ofBits (if j < 7 then 0 else if j = 7 then wordAt raw 7 / 2 ^ 16 * 2 ^ 16 else wordAt raw j) := by
  have hcell : ∀ i, memset raw 0 0 (sizeofShort * coefLen) i = if i < 30 then 0 else raw i := by
    intro i
    exact if_congr (by simp [sizeofShort, coefLen]) rfl rfl
  show ofBits (leNat (readCells _ (sizeofFloat * j) sizeofFloat)) = _
  congr 1
  rw [leNat_cells, hcell, hcell, hcell, hcell]
  unfold wordAt
  rw [leNat_cells, leNat_cells]
  unfold sizeofFloat
  rcases Nat.lt_trichotomy j 7 with hlt | rfl | hgt
  · rw [if_pos (by omega), if_pos (by omega), if_pos (by omega), if_pos (by omega), if_pos hlt]
    rfl
  · -- of `w[7]` the bytes 28 and 29 are cleared, 30 and 31 are not
    have h₀ := (raw 28).toNat_lt
    have h₁ := (raw 29).toNat_lt
    simp
    omega
  · rw [if_neg (by omega), if_neg (by omega), if_neg (by omega), if_neg (by omega), if_neg (by omega),
      if_neg (by omega)]

theorem initFilter_w_eq_zero (j : ℕ) : (initFilter loadFloat raw).w j = fin 0 ↔
    j < 7 ∨ (j = 7 ∧ wordAt raw 7 / 2 ^ 16 % 2 ^ 15 = 0) ∨ 7 < j ∧ wordAt raw j % 2 ^ 31 = 0 := by
  rw [initFilter_w, ofBits_eq_zero_iff]
  split_ifs <;> omega

theorem tailZero_iff : TailZero raw ↔ ∀ k, 1 ≤ k → k < coefLen → (initFilter loadFloat raw).w k = fin 0 := by
  constructor
  · intro h k _ hk
    rw [initFilter_w_eq_zero]
    rcases Nat.lt_trichotomy k 7 with hlt | rfl | hgt
    · exact Or.inl hlt
    · exact Or.inr (Or.inl ⟨rfl, h.half⟩)
    · exact Or.inr (Or.inr ⟨hgt, h.rest k hgt hk⟩)
  · intro h
    refine ⟨?_, fun j hj hj' => ?_⟩
    · have h7 := (initFilter_w_eq_zero 7).mp (h 7 (by decide) (by decide))
      omega
    · have h8 := (initFilter_w_eq_zero j).mp (h j (by omega) hj')
      omega

/-! ## Two runs -/

/-- A register without history. -/
noncomputable def emptyState : FilterState ExtFloat where
  w _ := ofRat 0
  filterCoef j := ofRat (filterCoef j)

/-- After `initFilter` both filters answer every input as from an empty register, whatever the state held
before: `raw` in one run, `raw'` in the other. -/
structure Forgets (raw raw' : ℕ → UInt8) : Prop where
  int16 : ∀ (data : ℕ → Int16) (len n : ℕ), n < len →
    (filterInt16 (initFilter loadFloat raw) data 0 len).2 n =
        (filterInt16 (initFilter loadFloat raw') data 0 len).2 n ∧
      (filterInt16 (initFilter loadFloat raw) data 0 len).2 n =
        int16Samples.store (convolution emptyState (fun i => int16Samples.load (data i)) n)
  float : ∀ (data : ℕ → ExtFloat) (len n : ℕ), n < len →
    (filterFloat (initFilter loadFloat raw) data 0 len).2 n =
        (filterFloat (initFilter loadFloat raw') data 0 len).2 n ∧
      (filterFloat (initFilter loadFloat raw) data 0 len).2 n =
        floatSamples.store (convolution emptyState data n)

/-- An output sample of a filter. -/
theorem output_filterWith {α : Type} (ty : SampleType ExtFloat α) (state : FilterState ExtFloat) (data : ℕ → α)
    {len n : ℕ} (hn : n < len) : (filterWith ty state data 0 len).2 n =
      ty.store (convolution state (fun i => ty.load (data i)) n) := by
  rw [(filterInv_filterWith ty state data len).data, if_pos hn]

/-- With zeros in its register the filter answers as from an empty one. -/
theorem convolution_of_tailZero (h : TailZero raw) (x : ℕ → ExtFloat) (n : ℕ) :
    convolution (initFilter loadFloat raw) x n = convolution emptyState x n := by
  have hzero : (ofRat 0 : ExtFloat) = fin 0 := by simp
  refine forLoop_congr _ fun j sum _ hj => ?_
  have htap : tapInput (initFilter loadFloat raw) x n j = tapInput emptyState x n j := by
    unfold tapInput
    split_ifs with hle
    · rfl
    · exact (tailZero_iff.mp h (j - n) (by omega) (by omega)).trans hzero.symm
  rw [htap]
  rfl

theorem forgets_of_tailZero {raw' : ℕ → UInt8} (h : TailZero raw) (h' : TailZero raw') :
    Forgets raw raw' := by
  refine ⟨fun data len n hn => ?_, fun data len n hn => ?_⟩
  · unfold filterInt16
    rw [output_filterWith _ _ _ hn, output_filterWith _ _ _ hn, convolution_of_tailZero h,
      convolution_of_tailZero h']
    exact ⟨rfl, rfl⟩
  · unfold filterFloat
    rw [output_filterWith _ _ _ hn, output_filterWith _ _ _ hn, convolution_of_tailZero h,
      convolution_of_tailZero h']
    exact ⟨rfl, rfl⟩

/-! ## Silence uncovers the register -/

/-- A clamped zero was zero. -/
theorem eq_zero_of_keepValueRange {v : ExtFloat} (h : keepValueRange v (ofRat (-1)) (ofRat 1) = fin 0) :
    v = fin 0 := by
  unfold keepValueRange at h
  split_ifs at h
  · simp at h
  · simp at h
  · exact h

/-- The taps before the last one that is not yet known to be zero add up to nothing. -/
theorem sum_zero_taps {g : ℕ → ExtFloat} {coef : ℕ → ℚ} {k : ℕ} (hg : ∀ j < k, g j = fin 0) :
    forLoop 0 k (fun j sum => sum + g j * ofRat (coef j)) (ofRat 0 : ExtFloat) = fin 0 := by
  refine forLoop_inv (fun s => s = fin 0) (by simp) fun j s _ hj hs => ?_
  rw [hs, hg j hj, ofRat_eq, fin_mul, fin_add, zero_mul, add_zero]

/-- On silence the empty register stays silent. -/
theorem convolution_empty (n : ℕ) : convolution emptyState (fun _ => fin 0) n = fin 0 := by
  refine sum_zero_taps fun j _ => ?_
  unfold tapInput
  split_ifs
  · rfl
  · exact (ofRat_eq 0).trans (by simp)

/-- **The register, cell by cell.** A register that answers silence with silence is empty: the output at
sample `14 - k` is the cell `k` alone, once the cells before it are known to be zero. -/
theorem history_of_outputs {state : FilterState ExtFloat} (hcoef : ∀ j, state.filterCoef j = ofRat (filterCoef j))
    (h : ∀ n < 14, keepValueRange (convolution state (fun _ => fin 0) n) (ofRat (-1)) (ofRat 1) = fin 0) :
    ∀ k, 1 ≤ k → k < coefLen → state.w k = fin 0 := by
  intro k
  induction k using Nat.strong_induction_on with
  | _ k ih =>
      intro hk hk'
      unfold coefLen at hk'
      have hzero := eq_zero_of_keepValueRange (h (14 - k) (by omega))
      have htaps : ∀ j < 14, tapInput state (fun _ => fin 0) (14 - k) j = fin 0 := by
        intro j hj
        unfold tapInput
        split_ifs
        · rfl
        · exact ih (j - (14 - k)) (by omega) (by omega) (by unfold coefLen; omega)
      have hlast : tapInput state (fun _ => fin 0) (14 - k) 14 = state.w k := by
        rw [tapInput, if_neg (by omega)]
        congr 1
        omega
      unfold convolution at hzero
      simp only [hcoef] at hzero
      rw [coefLen, forLoop_succ (Nat.zero_le 14), sum_zero_taps htaps, hlast, ofRat_eq] at hzero
      refine mul_fin_eq_zero ?_ hzero
      norm_num [filterCoef]

theorem tailZero_of_outputs
    (h : ∀ (data : ℕ → ExtFloat) (len n : ℕ), n < len → (filterFloat (initFilter loadFloat raw) data 0 len).2 n =
      floatSamples.store (convolution emptyState data n)) : TailZero raw := by
  refine tailZero_iff.mpr (history_of_outputs (fun _ => rfl) fun n hn => ?_)
  have hout := h (fun _ => fin 0) 14 n hn
  unfold filterFloat at hout
  rw [output_filterWith _ _ _ hn, convolution_empty] at hout
  refine hout.trans ?_
  show keepValueRange (fin 0) (ofRat (-1)) (ofRat 1) = fin 0
  unfold keepValueRange
  norm_num

theorem tailZero_of_forgets {raw' : ℕ → UInt8} (h : Forgets raw raw') : TailZero raw ∧ TailZero raw' :=
  ⟨tailZero_of_outputs fun data len n hn => (h.float data len n hn).2,
    tailZero_of_outputs fun data len n hn => (h.float data len n hn).1.symm.trans (h.float data len n hn).2⟩

/-- **`initFilter` removes the history exactly when the bytes that its `memset` misses hold zeros.** -/
theorem forgets_iff (raw raw' : ℕ → UInt8) : Forgets raw raw' ↔ TailZero raw ∧ TailZero raw' :=
  ⟨tailZero_of_forgets, fun h => forgets_of_tailZero h.1 h.2⟩

/-- The last cell of a state that held `1.0f` in `w[14]` survives. -/
theorem not_forgets_one : ¬ ∀ raw raw' : ℕ → UInt8, Forgets raw raw' := by
  intro h
  let raw : ℕ → UInt8 := fun i => if i = 58 then 0x80 else if i = 59 then 0x3f else 0
  have hword : wordAt raw 14 = 0x3f800000 := by decide
  have hzero := (tailZero_of_forgets (h raw raw)).1.rest 14 (by decide) (by decide)
  rw [hword] at hzero
  exact absurd hzero (by decide)

end AudioProcess
