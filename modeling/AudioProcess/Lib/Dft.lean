import Mathlib.RingTheory.RootsOfUnity.PrimitiveRoots
import Mathlib.Algebra.BigOperators.Intervals
import Mathlib.Algebra.Star.BigOperators
import Mathlib.Tactic.Ring

/-!
# The discrete Fourier transform at a root

`dft w n x k` is `∑ j < n, w ^ (j * k) * x j`, over any commutative ring; samples and bins are numbered by `ℕ`.

* `dft_congr`, `dft_add_period`;
* **`dft_decimate`**: a transform of `p * m` samples from `p` transforms of `m`, each of every `p`-th sample;
* **`dft_decimate_freq`**: the bins of `p * m` samples, every `p`-th of them, from one transform of `m`;
* `sum_pow_mul_inv`: the powers of a primitive root are orthogonal; **`dft_inv`**: the transform at the inverse root
  undoes the transform, times `n`; **`sum_dft_mul_dft_inv`**: Parseval's identity;
* `dft_inv_root`, `dft_reflect`: the inverse root and the order of bins and samples;
* `conj_dft_of_real`, `conj_dft_of_hermitian`: real inputs have Hermitian bins, and the other way round.
-/

namespace Dft

open Finset

variable {R : Type*} [CommRing R] {w : R} {n p m : ℕ} {x y : ℕ → R}

/-- The transform of `n` samples at `w`. -/
def dft (w : R) (n : ℕ) (x : ℕ → R) (k : ℕ) : R := ∑ j ∈ range n, w ^ (j * k) * x j

theorem dft_congr (h : ∀ j < n, x j = y j) (k : ℕ) : dft w n x k = dft w n y k :=
  sum_congr rfl fun j hj => by rw [h j (mem_range.mp hj)]

@[simp] theorem dft_one (w : R) (x : ℕ → R) (k : ℕ) : dft w 1 x k = x 0 := by
  simp [dft]

theorem dft_add_period (hw : w ^ n = 1) (x : ℕ → R) (k : ℕ) : dft w n x (k + n) = dft w n x k := by
  refine sum_congr rfl fun j _ => ?_
  rw [Nat.mul_add, pow_add, Nat.mul_comm j n, pow_mul w n j, hw, one_pow, mul_one]

/-- A sum over `p * m` places, as one over those of every residue. -/
theorem sum_decimate {M : Type*} [AddCommMonoid M] (p m : ℕ) (f : ℕ → M) :
    ∑ i ∈ range (p * m), f i = ∑ r ∈ range p, ∑ j ∈ range m, f (p * j + r) := by
  induction m with
  | zero => simp
  | succ m ih =>
      rw [Nat.mul_succ, sum_range_add, ih, ← sum_add_distrib]
      exact sum_congr rfl fun r _ => (sum_range_succ _ m).symm

/-- **Decimation in time.** -/
theorem dft_decimate (hw : w ^ (p * m) = 1) (x : ℕ → R) (u q : ℕ) :
    dft w (p * m) x (u + q * m) =
      ∑ r ∈ range p, w ^ (r * (u + q * m)) * dft (w ^ p) m (fun j => x (p * j + r)) u := by
  unfold dft
  rw [sum_decimate]
  refine sum_congr rfl fun r _ => ?_
  rw [mul_sum]
  refine sum_congr rfl fun j _ => ?_
  have hturns : w ^ (p * m * (j * q)) = 1 := by rw [pow_mul, hw, one_pow]
  have hexp : (p * j + r) * (u + q * m) = r * (u + q * m) + p * (j * u) + p * m * (j * q) := by ring
  rw [hexp, pow_add, pow_add, hturns, mul_one, pow_mul w p, mul_assoc]

theorem dft_add (x y : ℕ → R) (k : ℕ) : dft w n (fun j => x j + y j) k = dft w n x k + dft w n y k := by
  simp only [dft, mul_add, sum_add_distrib]

theorem dft_mul_left (c : R) (x : ℕ → R) (k : ℕ) : dft w n (fun j => c * x j) k = c * dft w n x k := by
  simp only [dft, mul_sum, mul_left_comm]

/-- **Decimation in frequency.** -/
theorem dft_decimate_freq (hw : w ^ (p * m) = 1) (x : ℕ → R) (j r : ℕ) :
    dft w (p * m) x (p * j + r) =
      dft (w ^ p) m (fun k => w ^ (k * r) * ∑ q ∈ range p, (w ^ m) ^ (q * r) * x (m * q + k)) j := by
  unfold dft
  rw [Nat.mul_comm p m, sum_decimate]
  refine sum_congr rfl fun k _ => ?_
  dsimp only
  rw [mul_sum, mul_sum]
  refine sum_congr rfl fun q _ => ?_
  have hturns : w ^ (p * m * (q * j)) = 1 := by rw [pow_mul, hw, one_pow]
  have hexp : (m * q + k) * (p * j + r) = p * m * (q * j) + p * (k * j) + (k * r + m * (q * r)) := by ring
  rw [hexp, pow_add, pow_add, pow_add, hturns, one_mul, pow_mul w p, pow_mul w m]
  ring

section Inverse

variable {K : Type*} [Field K] {w : K} {x : ℕ → K}

/-- The powers of a primitive root are orthogonal. -/
theorem sum_pow_mul_inv (hw : IsPrimitiveRoot w n) {i j : ℕ} (hi : i < n) (hj : j < n) :
    ∑ k ∈ range n, w ^ (i * k) * w⁻¹ ^ (k * j) = if i = j then (n : K) else 0 := by
  have hn : n ≠ 0 := by omega
  have hw₀ : w ≠ 0 := hw.ne_zero hn
  have hterm : ∀ k, w ^ (i * k) * w⁻¹ ^ (k * j) = (w ^ i * w⁻¹ ^ j) ^ k := fun k => by
    rw [mul_pow, ← pow_mul, ← pow_mul, Nat.mul_comm j k]
  simp only [hterm]
  split_ifs with hij
  · subst hij
    rw [← mul_pow, mul_inv_cancel₀ hw₀]
    simp
  · have hne : w ^ i * w⁻¹ ^ j ≠ 1 := by
      intro h
      rw [inv_pow, mul_inv_eq_one₀ (pow_ne_zero j hw₀)] at h
      exact hij (hw.pow_inj hi hj h)
    have hpow : (w ^ i * w⁻¹ ^ j) ^ n = 1 := by
      rw [mul_pow, ← pow_mul, ← pow_mul, Nat.mul_comm i, Nat.mul_comm j, pow_mul, pow_mul, inv_pow, hw.pow_eq_one,
        inv_one, one_pow, one_pow, one_mul]
    have hgeom := mul_geom_sum (w ^ i * w⁻¹ ^ j) n
    rw [hpow, sub_self] at hgeom
    exact (mul_eq_zero.mp hgeom).resolve_left (sub_ne_zero.mpr hne)

/-- **The inverse transform.** -/
theorem dft_inv (hw : IsPrimitiveRoot w n) (x : ℕ → K) {j : ℕ} (hj : j < n) :
    dft w⁻¹ n (dft w n x) j = n * x j := by
  calc dft w⁻¹ n (dft w n x) j
      = ∑ k ∈ range n, ∑ i ∈ range n, w ^ (i * k) * w⁻¹ ^ (k * j) * x i := by
        refine sum_congr rfl fun k _ => ?_
        rw [dft, mul_sum]
        exact sum_congr rfl fun i _ => by ring
    _ = ∑ i ∈ range n, (∑ k ∈ range n, w ^ (i * k) * w⁻¹ ^ (k * j)) * x i := by
        rw [sum_comm]
        exact sum_congr rfl fun i _ => (sum_mul ..).symm
    _ = ∑ i ∈ range n, if i = j then (n : K) * x i else 0 := by
        refine sum_congr rfl fun i hi => ?_
        rw [sum_pow_mul_inv hw (mem_range.mp hi) hj, ite_mul, zero_mul]
    _ = n * x j := by rw [sum_ite_eq', if_pos (mem_range.mpr hj)]

/-- **Parseval's identity**, for two inputs. -/
theorem sum_dft_mul_dft_inv (hw : IsPrimitiveRoot w n) (x y : ℕ → K) :
    ∑ k ∈ range n, dft w n x k * dft w⁻¹ n y k = n * ∑ j ∈ range n, x j * y j := by
  calc ∑ k ∈ range n, dft w n x k * dft w⁻¹ n y k
      = ∑ k ∈ range n, ∑ j ∈ range n, y j * (w⁻¹ ^ (k * j) * dft w n x k) := by
        refine sum_congr rfl fun k _ => ?_
        rw [dft.eq_def w⁻¹, mul_sum]
        exact sum_congr rfl fun j _ => by rw [Nat.mul_comm j k]; ring
    _ = ∑ j ∈ range n, y j * dft w⁻¹ n (dft w n x) j := by
        rw [sum_comm]
        exact sum_congr rfl fun j _ => (mul_sum ..).symm
    _ = n * ∑ j ∈ range n, x j * y j := by
        rw [mul_sum]
        refine sum_congr rfl fun j hj => ?_
        rw [dft_inv hw x (mem_range.mp hj)]
        ring

/-- The transform at the inverse root is the transform read backwards. -/
theorem dft_inv_root (hw : w ^ n = 1) (x : ℕ → K) {k : ℕ} (hk : k ≤ n) : dft w⁻¹ n x k = dft w n x (n - k) := by
  refine sum_congr rfl fun j _ => ?_
  have hone : w ^ (j * k) * w ^ (j * (n - k)) = 1 := by
    rw [← pow_add, ← Nat.mul_add, Nat.add_sub_cancel' hk, Nat.mul_comm, pow_mul, hw, one_pow]
  rw [inv_pow, eq_inv_of_mul_eq_one_right hone]

/-- The transform at the inverse root is the transform of the input read backwards. -/
theorem dft_reflect (hw : w ^ n = 1) (x : ℕ → K) (k : ℕ) :
    dft w⁻¹ n x k = dft w n (fun j => x ((n - j) % n)) k := by
  cases n with
  | zero => rfl
  | succ n =>
      unfold dft
      rw [sum_range_succ', sum_range_succ', ← sum_range_reflect]
      congr 1
      · refine sum_congr rfl fun j hj => ?_
        have hj' := mem_range.mp hj
        have hone : w ^ ((n - 1 - j + 1) * k) * w ^ ((j + 1) * k) = 1 := by
          rw [← pow_add, ← Nat.add_mul, show n - 1 - j + 1 + (j + 1) = n + 1 by omega, pow_mul, hw, one_pow]
        dsimp only
        rw [Nat.mod_eq_of_lt (by omega), show n + 1 - (j + 1) = n - 1 - j + 1 by omega, inv_pow,
          eq_inv_of_mul_eq_one_right hone]
      · simp

end Inverse

section Conjugate

variable {K : Type*} [Field K] [StarRing K] {w : K}

theorem conj_dft (hw : starRingEnd K w = w⁻¹) (x : ℕ → K) (k : ℕ) :
    starRingEnd K (dft w n x k) = dft w⁻¹ n (fun j => starRingEnd K (x j)) k := by
  simp only [dft, map_sum, map_mul, map_pow, hw]

/-- The bins of a real input. -/
theorem conj_dft_of_real (hw : starRingEnd K w = w⁻¹) (hn : w ^ n = 1) {x : ℕ → K}
    (hx : ∀ j, starRingEnd K (x j) = x j) {k : ℕ} (hk : k ≤ n) :
    starRingEnd K (dft w n x k) = dft w n x (n - k) := by
  simp only [conj_dft hw, hx, dft_inv_root hn x hk]

/-- The samples of Hermitian bins. -/
theorem conj_dft_of_hermitian (hw : starRingEnd K w = w⁻¹) (hn : w ^ n = 1) {x : ℕ → K}
    (hx : ∀ j < n, starRingEnd K (x j) = x ((n - j) % n)) (k : ℕ) :
    starRingEnd K (dft w n x k) = dft w n x k := by
  have hback : ∀ j < n, starRingEnd K (x ((n - j) % n)) = x j := fun j hj => by
    rw [hx _ (Nat.mod_lt _ (by omega))]
    congr 1
    rcases Nat.eq_zero_or_pos j with rfl | hj0
    · rw [Nat.sub_zero, Nat.mod_self, Nat.sub_zero, Nat.mod_self]
    · rw [Nat.mod_eq_of_lt (show n - j < n by omega), Nat.sub_sub_self hj.le, Nat.mod_eq_of_lt hj]
  rw [conj_dft hw, dft_reflect hn]
  exact dft_congr hback k

end Conjugate

end Dft
