import AudioProcess.Lib.CFloat
import AudioProcess.Lib.Loop

/-!
# Overlap-add

Frames of `2 * half` samples, frame `t` placed at sample `half * t`. `overlapAdd half y n p` is sample
`p` of the sum of the first `n` frames, added in their order from zero.

* `overlapAdd_first`, `overlapAdd_two`: the frames of one sample; `overlapAdd_add`: the frames in two groups;
  `overlapAdd_stable`: later frames do not change earlier samples; `overlapAdd_eq_zero`;
* **`overlapAdd_eq_sum`**: over the reals it is the sum of the frames that cover the sample;
  **`sum_sq_overlapAdd_le`**: its energy.
-/

namespace OverlapAdd

open CLoop

variable {F : Type} [CFloat F]

/-- Frame `t` covers sample `p`. -/
def Covers (half t p : ℕ) : Prop := half * t ≤ p ∧ p < half * t + 2 * half

instance (half t p : ℕ) : Decidable (Covers half t p) := inferInstanceAs (Decidable (_ ∧ _))

/-- Add sample `p`'s part of frame `t`. -/
def addFrame (half : ℕ) (y : ℕ → ℕ → F) (p t : ℕ) (acc : F) : F :=
  if Covers half t p then acc + y t (p - half * t) else acc

/-- Sample `p` of the overlap-add of the frames `y 0, …, y (n - 1)`. -/
def overlapAdd (half : ℕ) (y : ℕ → ℕ → F) (n p : ℕ) : F :=
  forLoop 0 n (addFrame half y p) (CFloat.ofRat 0)

variable {half n p : ℕ} {y y' : ℕ → ℕ → F}

theorem overlapAdd_zero : overlapAdd half y 0 p = CFloat.ofRat 0 := rfl

theorem overlapAdd_succ : overlapAdd half y (n + 1) p = addFrame half y p n (overlapAdd half y n p) :=
  forLoop_succ (Nat.zero_le n) ..

theorem overlapAdd_congr (h : ∀ t < n, ∀ j < 2 * half, y t j = y' t j) :
    overlapAdd half y n p = overlapAdd half y' n p := by
  refine forLoop_congr _ fun t acc _ ht => ?_
  unfold addFrame
  split_ifs with hc
  · rw [h t ht _ (by have := hc.1; have := hc.2; omega)]
  · rfl

/-- Frames that start later do not matter. -/
theorem overlapAdd_stable {m : ℕ} (hm : n ≤ m) (hp : p < half * n) :
    overlapAdd half y m p = overlapAdd half y n p := by
  induction m, hm using Nat.le_induction with
  | base => rfl
  | succ m hm ih =>
      rw [overlapAdd_succ, ih, addFrame, if_neg]
      rintro ⟨h, -⟩
      have := Nat.mul_le_mul_left half hm
      omega

/-- Past the last frame there is nothing. -/
theorem overlapAdd_eq_zero (hp : half * n + half ≤ p) : overlapAdd half y n p = CFloat.ofRat 0 := by
  induction n with
  | zero => rfl
  | succ n ih =>
      rw [Nat.mul_succ] at hp
      rw [overlapAdd_succ, ih (by omega), addFrame, if_neg]
      rintro ⟨-, h⟩
      omega

/-- The first `half` samples come from frame `0` alone. -/
theorem overlapAdd_first {j : ℕ} (hn : 0 < n) (hj : j < half) :
    overlapAdd half y n j = CFloat.ofRat 0 + y 0 j := by
  rw [overlapAdd_stable hn (by omega), overlapAdd_succ, overlapAdd_zero, addFrame,
    if_pos ⟨by omega, by omega⟩, Nat.mul_zero, Nat.sub_zero]

/-- Every later sample comes from two frames. -/
theorem overlapAdd_two {s j : ℕ} (hs : s + 1 < n) (hj : j < half) :
    overlapAdd half y n (half * (s + 1) + j) = CFloat.ofRat 0 + y s (half + j) + y (s + 1) j := by
  have hmul : half * (s + 1) = half * s + half := Nat.mul_succ half s
  have hmul' : half * (s + 1 + 1) = half * (s + 1) + half := Nat.mul_succ half (s + 1)
  rw [overlapAdd_stable (show s + 1 + 1 ≤ n from hs) (by omega), overlapAdd_succ, overlapAdd_succ,
    overlapAdd_eq_zero (by omega), addFrame, addFrame, if_pos ⟨by omega, by omega⟩,
    if_pos ⟨by omega, by omega⟩, Nat.add_sub_cancel_left,
    show half * (s + 1) + j - half * s = half + j by omega]

/-- The frames from `n` on are added to what the first `n` leave. -/
theorem overlapAdd_add (half : ℕ) (y : ℕ → ℕ → F) (n m p : ℕ) :
    overlapAdd half y (n + m) (half * n + p) =
      forLoop 0 m (addFrame half (fun i => y (n + i)) p) (overlapAdd half y n (half * n + p)) := by
  induction m with
  | zero => rfl
  | succ m ih =>
      rw [← Nat.add_assoc, overlapAdd_succ, ih, forLoop_succ (Nat.zero_le m)]
      unfold addFrame
      rw [Nat.mul_add, Nat.add_sub_add_left]
      exact if_congr (by unfold Covers; rw [Nat.mul_add]; omega) rfl rfl

/-- **Overlap-add over the reals.** -/
theorem overlapAdd_eq_sum (half : ℕ) (y : ℕ → ℕ → ℝ) (n p : ℕ) : overlapAdd half y n p =
    ∑ t ∈ Finset.range n, if Covers half t p then y t (p - half * t) else 0 := by
  induction n with
  | zero => simp [overlapAdd_zero]
  | succ n ih =>
      rw [overlapAdd_succ, Finset.sum_range_succ, ← ih, addFrame]
      split_ifs
      · rfl
      · exact (add_zero _).symm

/-- A sum over samples, hop by hop. -/
theorem sum_hops {M : Type*} [AddCommMonoid M] (half n : ℕ) (f : ℕ → M) :
    ∑ p ∈ Finset.range (half * n), f p = ∑ s ∈ Finset.range n, ∑ j ∈ Finset.range half, f (half * s + j) := by
  induction n with
  | zero => simp
  | succ n ih => rw [Nat.mul_succ, Finset.sum_range_add, ih, Finset.sum_range_succ]

/-- What the frame before frame `s` adds to the hop of frame `s`. -/
def tail (half : ℕ) (y : ℕ → ℕ → ℝ) : ℕ → ℕ → ℝ
  | 0, _ => 0
  | s + 1, j => y s (half + j)

theorem overlapAdd_hop {y : ℕ → ℕ → ℝ} {s j : ℕ} (hs : s < n) (hj : j < half) :
    overlapAdd half y n (half * s + j) = tail half y s j + y s j := by
  cases s with
  | zero =>
      rw [Nat.mul_zero, Nat.zero_add, overlapAdd_first hs hj]
      simp [tail]
  | succ s =>
      rw [overlapAdd_two hs hj]
      simp [tail]

/-- **The energy of overlapped frames** is at most twice the sum of theirs. -/
theorem sum_sq_overlapAdd_le (half : ℕ) (y : ℕ → ℕ → ℝ) (n : ℕ) :
    ∑ p ∈ Finset.range (half * n), overlapAdd half y n p ^ 2 ≤
      2 * ∑ t ∈ Finset.range n, ∑ j ∈ Finset.range (2 * half), y t j ^ 2 := by
  have hsq : ∀ s, 0 ≤ ∑ j ∈ Finset.range half, y s (half + j) ^ 2 := fun s =>
    Finset.sum_nonneg fun j _ => sq_nonneg _
  have htails : ∑ s ∈ Finset.range n, ∑ j ∈ Finset.range half, tail half y s j ^ 2 ≤
      ∑ s ∈ Finset.range n, ∑ j ∈ Finset.range half, y s (half + j) ^ 2 := by
    cases n with
    | zero => simp
    | succ n =>
        rw [Finset.sum_range_succ', Finset.sum_range_succ]
        simp only [tail]
        have := hsq n
        simpa using this
  calc ∑ p ∈ Finset.range (half * n), overlapAdd half y n p ^ 2
      = ∑ s ∈ Finset.range n, ∑ j ∈ Finset.range half, overlapAdd half y n (half * s + j) ^ 2 := sum_hops ..
    _ ≤ ∑ s ∈ Finset.range n, ∑ j ∈ Finset.range half, 2 * (tail half y s j ^ 2 + y s j ^ 2) := by
        refine Finset.sum_le_sum fun s hs => Finset.sum_le_sum fun j hj => ?_
        rw [overlapAdd_hop (Finset.mem_range.mp hs) (Finset.mem_range.mp hj)]
        exact add_sq_le
    _ = 2 * (∑ s ∈ Finset.range n, ∑ j ∈ Finset.range half, tail half y s j ^ 2 +
          ∑ s ∈ Finset.range n, ∑ j ∈ Finset.range half, y s j ^ 2) := by
        simp only [← Finset.mul_sum, Finset.sum_add_distrib]
    _ ≤ 2 * (∑ s ∈ Finset.range n, ∑ j ∈ Finset.range half, y s (half + j) ^ 2 +
          ∑ s ∈ Finset.range n, ∑ j ∈ Finset.range half, y s j ^ 2) := by gcongr
    _ = 2 * ∑ t ∈ Finset.range n, ∑ j ∈ Finset.range (2 * half), y t j ^ 2 := by
        rw [add_comm, ← Finset.sum_add_distrib]
        simp only [Nat.two_mul, Finset.sum_range_add]

end OverlapAdd
