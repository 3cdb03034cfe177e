import AudioProcess.Lib.Allpass
import AudioProcess.Lib.CFloat
import Mathlib.RingTheory.PowerSeries.Inverse
import Mathlib.Tactic.FieldSimp

/-!
# The ideal all-pass section

A signal is a power series, and a filter multiplies it.

* `transfer a`: the section with coefficient `a`, as the series `(a + X) / (1 + a X)`; `signal`;
* `coeff_transfer_zero`, `coeff_transfer_succ`: its recursion;
* **`sum_sq_transfer`**: what the section lets out is what it took in, but for what it still holds;
* **`near_of_recursion`**: what follows the recursion up to `r`, on a signal that is given up to `E`, is within
  `(1 + 2a) E + r / (1 - a)` of the ideal output;
* **`filtered_near`**: so is the section on integers that rounds its products down, with `r = 1`.
-/

namespace Allpass

open PowerSeries

/-- A signal. -/
noncomputable def signal (u : ℕ → ℝ) : ℝ⟦X⟧ := PowerSeries.mk u

/-- The ideal section. -/
noncomputable def transfer (a : ℝ) : ℝ⟦X⟧ := (C a + X) * (1 + C a * X)⁻¹

variable {a : ℝ}

theorem transfer_mul (a : ℝ) (u : ℝ⟦X⟧) : (1 + C a * X) * (transfer a * u) = (C a + X) * u := by
  have hinv : (1 + C a * X) * (1 + C a * X)⁻¹ = 1 := PowerSeries.mul_inv_cancel _ (by simp)
  unfold transfer
  linear_combination (C a + X) * u * hinv

theorem coeff_transfer_zero (a : ℝ) (u : ℝ⟦X⟧) : coeff 0 (transfer a * u) = a * coeff 0 u := by
  have h := congrArg (coeff 0) (transfer_mul a u)
  simpa [add_mul, mul_assoc] using h

/-- The recursion of the section. -/
theorem coeff_transfer_succ (a : ℝ) (u : ℝ⟦X⟧) (n : ℕ) :
    coeff (n + 1) (transfer a * u) = coeff n u + a * (coeff (n + 1) u - coeff n (transfer a * u)) := by
  have h := congrArg (coeff (n + 1)) (transfer_mul a u)
  simp only [add_mul, one_mul, mul_assoc, map_add, coeff_C_mul, coeff_succ_X_mul] at h
  linear_combination h

/-! ## Energy -/

/-- What the section holds. -/
noncomputable def held (a : ℝ) (u : ℝ⟦X⟧) : ℝ⟦X⟧ := (1 + C a * X)⁻¹ * u

theorem held_mul (a : ℝ) (u : ℝ⟦X⟧) : (1 + C a * X) * held a u = u := by
  unfold held
  rw [← mul_assoc, PowerSeries.mul_inv_cancel _ (by simp), one_mul]

theorem transfer_mul_eq (a : ℝ) (u : ℝ⟦X⟧) : transfer a * u = (C a + X) * held a u := by
  unfold transfer held
  ring

/-- **The section is all-pass**: the energy that came in is the energy that went out and that of what it holds. -/
theorem sum_sq_transfer (a : ℝ) (u : ℝ⟦X⟧) (n : ℕ) : ∑ k ∈ Finset.range (n + 1), coeff k u ^ 2 =
    ∑ k ∈ Finset.range (n + 1), coeff k (transfer a * u) ^ 2 + (1 - a ^ 2) * coeff n (held a u) ^ 2 := by
  have hin : ∀ k, coeff (k + 1) u = coeff (k + 1) (held a u) + a * coeff k (held a u) := fun k => by
    conv_lhs => rw [← held_mul a u]
    simp [add_mul, mul_assoc, coeff_succ_X_mul]
  have hout : ∀ k, coeff (k + 1) (transfer a * u) = a * coeff (k + 1) (held a u) + coeff k (held a u) := fun k => by
    rw [transfer_mul_eq]
    simp [add_mul, coeff_succ_X_mul]
  have hzero : coeff 0 u = coeff 0 (held a u) := by
    conv_lhs => rw [← held_mul a u]
    simp [add_mul, mul_assoc]
  induction n with
  | zero =>
      rw [Finset.sum_range_one, Finset.sum_range_one, coeff_transfer_zero, hzero]
      ring
  | succ n ih =>
      rw [Finset.sum_range_succ, ih, Finset.sum_range_succ _ (n + 1), hin, hout]
      ring

theorem sum_sq_transfer_le (ha : |a| ≤ 1) (u : ℝ⟦X⟧) (n : ℕ) :
    ∑ k ∈ Finset.range n, coeff k (transfer a * u) ^ 2 ≤ ∑ k ∈ Finset.range n, coeff k u ^ 2 := by
  cases n with
  | zero => simp
  | succ n =>
      have hsq : a ^ 2 ≤ 1 := (sq_le_one_iff_abs_le_one a).mpr ha
      have hheld : 0 ≤ (1 - a ^ 2) * coeff n (held a u) ^ 2 := mul_nonneg (by linarith) (sq_nonneg _)
      linarith [sum_sq_transfer a u n]

/-! ## Perturbed sections -/

section Near

variable {r E : ℝ} {N : ℕ} {u x y : ℕ → ℝ}

/-- The difference of a section from its direct part shrinks by the coefficient on each turn. -/
theorem rest_le (ha : 0 ≤ a) (ha' : a < 1) (hr : 0 ≤ r) (hE : 0 ≤ E) (hd : ∀ k < N, |x k| ≤ E)
    (hzero : 0 < N → |y 0 - a * x 0| ≤ r)
    (hsucc : ∀ k, k + 1 < N → |y (k + 1) - (x k + a * (x (k + 1) - y k))| ≤ r) :
    ∀ k < N, |y k - a * x k| ≤ (1 + a) * E + r / (1 - a) := by
  have hpos : 0 < 1 - a := by linarith
  have hcancel : r / (1 - a) * (1 - a) = r := div_mul_cancel₀ r hpos.ne'
  have hquot : r ≤ r / (1 - a) := by rw [le_div_iff₀ hpos]; nlinarith
  intro k
  induction k with
  | zero =>
      intro hN
      have h₀ : 0 ≤ (1 + a) * E := by positivity
      linarith [hzero hN]
  | succ k ih =>
      intro hN
      have hrest := abs_le.mp (ih (by omega))
      have hturn := abs_le.mp (hsucc k hN)
      have hx := abs_le.mp (hd k (by omega))
      have hsq : 0 ≤ (1 - a) * (1 + a) := by nlinarith
      have hx₁ := mul_le_mul_of_nonneg_left hx.1 hsq
      have hx₂ := mul_le_mul_of_nonneg_left hx.2 hsq
      have hr₁ := mul_le_mul_of_nonneg_left hrest.1 ha
      have hr₂ := mul_le_mul_of_nonneg_left hrest.2 ha
      -- what is left is `(1 - a²) x[n-1]` less `a` times the rest before, up to `r`
      have hsplit : y (k + 1) - a * x (k + 1) = (y (k + 1) - (x k + a * (x (k + 1) - y k))) +
          (1 - a) * (1 + a) * x k - a * (y k - a * x k) := by ring
      rw [hsplit, abs_le]
      constructor <;> nlinarith

/-- **The error of a section.** Outputs that follow the recursion up to `r`, on inputs that are a signal up to `E`, are
those of the ideal section up to `(1 + 2a) E + r / (1 - a)`. -/
theorem near_of_recursion (ha : 0 ≤ a) (ha' : a < 1) (hr : 0 ≤ r) (hE : 0 ≤ E) (hd : ∀ k < N, |x k - u k| ≤ E)
    (hzero : 0 < N → |y 0 - a * x 0| ≤ r)
    (hsucc : ∀ k, k + 1 < N → |y (k + 1) - (x k + a * (x (k + 1) - y k))| ≤ r) {k : ℕ} (hk : k < N) :
    |y k - coeff k (transfer a * signal u)| ≤ (1 + 2 * a) * E + r / (1 - a) := by
  set v : ℕ → ℝ := fun k => coeff k (transfer a * signal u) with hv
  have hv₀ : v 0 = a * u 0 := by simp [hv, coeff_transfer_zero, signal]
  have hv₁ : ∀ k, v (k + 1) = u k + a * (u (k + 1) - v k) := fun k => by
    simp [hv, coeff_transfer_succ, signal]
  have hrest := rest_le (x := fun k => x k - u k) (y := fun k => y k - v k) ha ha' hr hE hd
    (fun hN => by rw [hv₀]; simpa [mul_sub] using hzero hN)
    (fun k hN => by rw [hv₁]; convert hsucc k hN using 2; ring) k hk
  have hin := mul_le_mul_of_nonneg_left (hd k hk) ha
  calc |y k - v k| = |(y k - v k - a * (x k - u k)) + a * (x k - u k)| := by rw [sub_add_cancel]
    _ ≤ |y k - v k - a * (x k - u k)| + |a * (x k - u k)| := abs_add_le _ _
    _ ≤ ((1 + a) * E + r / (1 - a)) + a * E := by
        rw [abs_mul, abs_of_nonneg ha]
        exact add_le_add hrest hin
    _ = (1 + 2 * a) * E + r / (1 - a) := by ring

end Near

/-! ## Sections on integers -/

/-- **A section that rounds its products down** stays near the ideal one. -/
theorem filtered_near {Q A : ℤ} (hQ : 0 < Q) (hA : 0 ≤ A) (hAQ : A < Q) {E : ℝ} (hE : 0 ≤ E) {N : ℕ} {x : ℕ → ℤ}
    {u : ℕ → ℝ} (hx : ∀ k < N, |(x k : ℝ) - u k| ≤ E) {k : ℕ} (hk : k < N) :
    |(filtered Q A ⟨0, 0⟩ x k : ℝ) - coeff k (transfer (A / Q) * signal u)| ≤
      (1 + 2 * (A / Q)) * E + 1 / (1 - A / Q) := by
  have hQ' : (0 : ℝ) < Q := by exact_mod_cast hQ
  have hround : ∀ v : ℤ, |((A * v / Q : ℤ) : ℝ) - A / Q * v| ≤ 1 := by
    intro v
    have hmod := Int.emod_add_mul_ediv (A * v) Q
    have hlow := Int.emod_nonneg (A * v) hQ.ne'
    have hhigh := Int.emod_lt_of_pos (A * v) hQ
    have hmod' : ((A * v % Q : ℤ) : ℝ) + Q * ((A * v / Q : ℤ) : ℝ) = A * v := by exact_mod_cast hmod
    have hlow' : (0 : ℝ) ≤ ((A * v % Q : ℤ) : ℝ) := by exact_mod_cast hlow
    have hhigh' : ((A * v % Q : ℤ) : ℝ) < Q := by exact_mod_cast hhigh
    have hdiff : ((A * v / Q : ℤ) : ℝ) - A / Q * v = -(((A * v % Q : ℤ) : ℝ) / Q) := by
      field_simp
      linarith
    rw [hdiff, abs_neg, abs_of_nonneg (by positivity), div_le_one hQ']
    exact hhigh'.le
  have hA' : (0 : ℝ) ≤ A := by exact_mod_cast hA
  refine near_of_recursion (y := fun k => (filtered Q A ⟨0, 0⟩ x k : ℝ)) (div_nonneg hA' hQ'.le) ?_ zero_le_one hE hx
    (fun _ => ?_) (fun j _ => ?_) hk
  · rw [div_lt_one hQ']
    exact_mod_cast hAQ
  · simpa [filtered, orbit, Section.next] using hround (x 0)
  · have hout : filtered Q A ⟨0, 0⟩ x (j + 1) = x j + A * (x (j + 1) - filtered Q A ⟨0, 0⟩ x j) / Q := rfl
    have h := hround (x (j + 1) - filtered Q A ⟨0, 0⟩ x j)
    simp only [hout]
    push_cast at h ⊢
    convert h using 2
    ring

end Allpass
