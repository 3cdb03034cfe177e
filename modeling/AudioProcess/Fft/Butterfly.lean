import AudioProcess.Fft.Factor
import Mathlib.Analysis.Complex.Basic
import Mathlib.RingTheory.RootsOfUnity.PrimitiveRoots
import Mathlib.Tactic.LinearCombination

/-!
# The butterflies

Over the reals. A butterfly of radix `p` at `u` reads and writes the `p` cells that lie `m` apart from `u` on.

* `Cpx.toC`: a complex number of the library as one of Mathlib;
* `Twiddled`: the twiddle factors are the powers of a root;
* `Recombines`: what a butterfly does to its cells; `recombines_kfBfly2`, …, `recombines_kfBflyGeneric`;
* **`kfBfly_spec`**: the loop over the butterflies, for any radix.
-/

namespace AudioProcess

open CFloat CLoop Finset

/-! ## Complex numbers -/

namespace Cpx

/-- A complex number of the library. -/
def toC (z : Cpx ℝ) : ℂ := ⟨z.r, z.i⟩

variable (a b : Cpx ℝ)

@[simp] theorem toC_re : a.toC.re = a.r := rfl

@[simp] theorem toC_im : a.toC.im = a.i := rfl

@[simp] theorem toC_mul : (a.mul b).toC = a.toC * b.toC := by
  apply Complex.ext <;> simp [mul]

@[simp] theorem toC_add : (a.add b).toC = a.toC + b.toC := by
  apply Complex.ext <;> simp [add]

@[simp] theorem toC_sub : (a.sub b).toC = a.toC - b.toC := by
  apply Complex.ext <;> simp [sub]

theorem toC_injective : Function.Injective toC := by
  rintro ⟨r, i⟩ ⟨r', i'⟩ h
  obtain rfl : r = r' := congrArg Complex.re h
  obtain rfl : i = i' := congrArg Complex.im h
  rfl

end Cpx

theorem halfOf_real (x : ℝ) : halfOf x = x / 2 := by
  rw [halfOf, ofRat_real]
  push_cast
  ring

/-! ## Twiddle factors -/

/-- The twiddle factors are the powers of `w`, which turns to the side that `inverse` says. -/
structure Twiddled (st : KissFftState ℝ) (w : ℂ) : Prop where
  pos : 0 < st.nfft
  prim : IsPrimitiveRoot w st.nfft
  twiddles : ∀ i < st.nfft, (st.twiddles i).toC = w ^ i
  quarter : ∀ k, st.nfft = k * 4 → w ^ k = if st.inverse then Complex.I else -Complex.I

variable {st : KissFftState ℝ} {w : ℂ} {fstride m p u o : ℕ}

/-- The twiddle factor at a multiple of the stride. -/
theorem Twiddled.tw (hst : Twiddled st w) (hlen : fstride * (p * m) = st.nfft) {i e : ℕ} (hi : i = fstride * e)
    (he : e < p * m) : (st.twiddles i).toC = (w ^ fstride) ^ e := by
  have hpos : 0 < fstride := Nat.pos_of_ne_zero fun h => by
    have := hst.pos
    rw [← hlen, h, Nat.zero_mul] at this
    exact Nat.lt_irrefl 0 this
  rw [hst.twiddles i (hlen ▸ hi ▸ Nat.mul_lt_mul_of_pos_left he hpos), hi, pow_mul]

/-- The radix's own root. -/
theorem Twiddled.radixRoot (hst : Twiddled st w) (hlen : fstride * (p * m) = st.nfft) :
    IsPrimitiveRoot ((w ^ fstride) ^ m) p := by
  rw [← pow_mul]
  refine hst.prim.pow hst.pos ?_
  rw [← hlen]
  ring

/-- A root of unity has its conjugate as inverse. -/
theorem conj_eq_of_mul_eq_one {a b : ℂ} {n : ℕ} (hn : n ≠ 0) (ha : a ^ n = 1) (hab : a * b = 1) :
    b = (starRingEnd ℂ) a := by
  rw [eq_inv_of_mul_eq_one_right hab]
  exact Complex.inv_eq_conj (Complex.norm_eq_one_of_pow_eq_one ha hn)

/-! ## One butterfly -/

/-- What the turn `body` at `u`, with its first cell at `o`, does to the memory. -/
structure Recombines (W : ℂ) (p m u o : ℕ) (body : (ℕ → Cpx ℝ) → ℕ → Cpx ℝ) : Prop where
  cells : ∀ mem, ∀ q < p, (body mem (o + q * m)).toC =
    ∑ r ∈ range p, W ^ (r * (u + q * m)) * (mem (o + r * m)).toC
  frame : ∀ mem x, (∀ q < p, x ≠ o + q * m) → body mem x = mem x

/-- The terms of a cell: a power of the radix's root, and the twiddled input. -/
theorem pow_cell {W : ℂ} (hω : (W ^ m) ^ p = 1) (r u q : ℕ) :
    W ^ (r * (u + q * m)) = (W ^ m) ^ (r * q % p) * W ^ (r * u) := by
  rw [← pow_eq_pow_mod _ hω, ← pow_mul, ← pow_add]
  congr 1
  ring

theorem recombines_kfBfly2 (hst : Twiddled st w) (hm : 0 < m) (hlen : fstride * (2 * m) = st.nfft) (hu : u < m) :
    Recombines (w ^ fstride) 2 m u o (kfBfly2 st fstride m u o) where
  cells mem q hq := by
    have hω := hst.radixRoot hlen
    have hneg := hω.eq_neg_one_of_two_right
    have ht := hst.tw hlen (Nat.mul_comm u fstride) (by omega)
    simp only [pow_cell hω.pow_eq_one, hneg, sum_range_succ, range_zero, sum_empty]
    interval_cases q
    · simp [kfBfly2, ht, hm.ne']
      ring
    · simp [kfBfly2, ht, hm.ne']
      ring
  frame mem x hx := by
    have h₀ := hx 0 (by decide)
    have h₁ := hx 1 (by decide)
    simp only [Nat.zero_mul, Nat.add_zero, Nat.one_mul] at h₀ h₁
    simp [kfBfly2, h₀, h₁]

/-- The powers of a third root of one, from its imaginary part. -/
theorem third_root {ω : ℂ} (hω : IsPrimitiveRoot ω 3) :
    ω = -(1 / 2) + ω.im * Complex.I ∧ ω ^ 2 = -(1 / 2) - ω.im * Complex.I := by
  have hcube := hω.pow_eq_one
  have hsum := hω.geom_sum_eq_zero (by decide)
  simp only [sum_range_succ, range_zero, sum_empty] at hsum
  have hsq : ω ^ 2 = (starRingEnd ℂ) ω :=
    conj_eq_of_mul_eq_one (show 3 ≠ 0 by decide) hcube (by rw [← pow_succ', hcube])
  rw [hsq] at hsum ⊢
  have hre : 1 + ω.re + ω.re = 0 := by simpa using congrArg Complex.re hsum
  constructor
  · apply Complex.ext
    · simp
      linarith
    · simp
  · apply Complex.ext
    · simp
      linarith
    · simp

/-- What `kf_bfly3` leaves in its cells, in terms of the twiddled inputs. -/
theorem kfBfly3_cells (hm : 0 < m) (mem : ℕ → Cpx ℝ) {t₁ t₂ : Cpx ℝ} {e : ℝ}
    (h₁ : (mem (o + m)).mul (st.twiddles (u * fstride)) = t₁)
    (h₂ : (mem (o + 2 * m)).mul (st.twiddles (u * (fstride * 2))) = t₂)
    (he : (st.twiddles (fstride * m)).i = e) :
    (kfBfly3 st fstride m u o mem o).toC = (mem o).toC + (t₁.toC + t₂.toC) ∧
    (kfBfly3 st fstride m u o mem (o + m)).toC =
      (mem o).toC - (t₁.toC + t₂.toC) / 2 + e * Complex.I * (t₁.toC - t₂.toC) ∧
    (kfBfly3 st fstride m u o mem (o + 2 * m)).toC =
      (mem o).toC - (t₁.toC + t₂.toC) / 2 - e * Complex.I * (t₁.toC - t₂.toC) := by
  refine ⟨?_, ?_, ?_⟩
  · simp [kfBfly3, hm.ne', h₁, h₂]
  · apply Complex.ext
    · simp [kfBfly3, hm.ne', halfOf_real, h₁, h₂, he, Cpx.add, Cpx.sub, Cpx.mulByScalar]
      ring
    · simp [kfBfly3, hm.ne', halfOf_real, h₁, h₂, he, Cpx.add, Cpx.sub, Cpx.mulByScalar]
      ring
  · apply Complex.ext
    · simp [kfBfly3, hm.ne', halfOf_real, h₁, h₂, he, Cpx.add, Cpx.sub, Cpx.mulByScalar]
      ring
    · simp [kfBfly3, hm.ne', halfOf_real, h₁, h₂, he, Cpx.add, Cpx.sub, Cpx.mulByScalar]
      ring

theorem recombines_kfBfly3 (hst : Twiddled st w) (hm : 0 < m) (hlen : fstride * (3 * m) = st.nfft) (hu : u < m) :
    Recombines (w ^ fstride) 3 m u o (kfBfly3 st fstride m u o) where
  cells mem q hq := by
    have hω := hst.radixRoot hlen
    have ht₁ := hst.tw hlen (Nat.mul_comm u fstride) (by omega)
    have ht₂ := hst.tw hlen (show u * (fstride * 2) = fstride * (2 * u) by ring) (by omega)
    have hepi : (st.twiddles (fstride * m)).i = ((w ^ fstride) ^ m).im := by
      rw [← hst.tw hlen rfl (show m < 3 * m by omega), Cpx.toC_im]
    obtain ⟨hone, htwo⟩ := third_root hω
    simp only [pow_cell hω.pow_eq_one, sum_range_succ, range_zero, sum_empty]
    obtain ⟨h₀, h₁, h₂⟩ := kfBfly3_cells (u := u) (o := o) hm mem rfl rfl hepi
    rw [Cpx.toC_mul, Cpx.toC_mul, ht₁, ht₂] at h₀ h₁ h₂
    generalize (w ^ fstride) ^ m = ω at *
    interval_cases q
    · simp [h₀]
      ring
    · simp [h₁]
      linear_combination (-(w ^ fstride) ^ u * (mem (o + m)).toC) * hone -
        ((w ^ fstride) ^ (2 * u) * (mem (o + 2 * m)).toC) * htwo
    · simp [h₂]
      linear_combination (-(w ^ fstride) ^ u * (mem (o + m)).toC) * htwo -
        ((w ^ fstride) ^ (2 * u) * (mem (o + 2 * m)).toC) * hone
  frame mem x hx := by
    have h₀ := hx 0 (by decide)
    have h₁ := hx 1 (by decide)
    have h₂ := hx 2 (by decide)
    simp only [Nat.zero_mul, Nat.add_zero, Nat.one_mul] at h₀ h₁
    simp [kfBfly3, h₀, h₁, h₂]

/-- What `kf_bfly4` leaves in its cells, in terms of the twiddled inputs and of the quarter turn `z`. -/
theorem kfBfly4_cells (hm : 0 < m) (mem : ℕ → Cpx ℝ) {t₁ t₂ t₃ : Cpx ℝ} {z : ℂ}
    (h₁ : (mem (o + m)).mul (st.twiddles (u * fstride)) = t₁)
    (h₂ : (mem (o + 2 * m)).mul (st.twiddles (u * (fstride * 2))) = t₂)
    (h₃ : (mem (o + 3 * m)).mul (st.twiddles (u * (fstride * 3))) = t₃)
    (hz : z = if st.inverse then Complex.I else -Complex.I) :
    (kfBfly4 st fstride m u o mem o).toC = (mem o).toC + t₁.toC + t₂.toC + t₃.toC ∧
    (kfBfly4 st fstride m u o mem (o + m)).toC = (mem o).toC + z * t₁.toC - t₂.toC - z * t₃.toC ∧
    (kfBfly4 st fstride m u o mem (o + 2 * m)).toC = (mem o).toC - t₁.toC + t₂.toC - t₃.toC ∧
    (kfBfly4 st fstride m u o mem (o + 3 * m)).toC = (mem o).toC - z * t₁.toC - t₂.toC + z * t₃.toC := by
  subst hz
  cases hinv : st.inverse
  all_goals
    refine ⟨?_, ?_, ?_, ?_⟩
    · simp [kfBfly4, hinv, hm.ne', h₁, h₂, h₃]
      ring
    · apply Complex.ext <;> simp [kfBfly4, hinv, hm.ne', h₁, h₂, h₃, Cpx.sub] <;> ring
    · simp [kfBfly4, hinv, hm.ne', h₁, h₂, h₃]
      ring
    · apply Complex.ext <;> simp [kfBfly4, hinv, hm.ne', h₁, h₂, h₃, Cpx.sub] <;> ring

theorem recombines_kfBfly4 (hst : Twiddled st w) (hm : 0 < m) (hlen : fstride * (4 * m) = st.nfft) (hu : u < m) :
    Recombines (w ^ fstride) 4 m u o (kfBfly4 st fstride m u o) where
  cells mem q hq := by
    have hω := hst.radixRoot hlen
    have ht₁ := hst.tw hlen (Nat.mul_comm u fstride) (by omega)
    have ht₂ := hst.tw hlen (show u * (fstride * 2) = fstride * (2 * u) by ring) (by omega)
    have ht₃ := hst.tw hlen (show u * (fstride * 3) = fstride * (3 * u) by ring) (by omega)
    have hquarter := hst.quarter (fstride * m) (by rw [← hlen]; ring)
    rw [pow_mul] at hquarter
    have hsq : ((w ^ fstride) ^ m) ^ 2 = -1 := by
      rw [hquarter]
      split_ifs <;> simp
    obtain ⟨h₀, h₁, h₂, h₃⟩ := kfBfly4_cells (u := u) (o := o) hm mem rfl rfl rfl hquarter
    rw [Cpx.toC_mul, Cpx.toC_mul, Cpx.toC_mul, ht₁, ht₂, ht₃] at h₀ h₁ h₂ h₃
    simp only [pow_cell hω.pow_eq_one, sum_range_succ, range_zero, sum_empty]
    generalize (w ^ fstride) ^ m = ω at *
    have hcube : ω ^ 3 = -ω := by rw [pow_succ, hsq, neg_one_mul]
    interval_cases q
    · simp [h₀]
      ring
    · simp [h₁, hsq, hcube]
      ring
    · simp [h₂, hsq]
      ring
    · simp [h₃, hsq, hcube]
      ring
  frame mem x hx := by
    have h₀ := hx 0 (by decide)
    have h₁ := hx 1 (by decide)
    have h₂ := hx 2 (by decide)
    have h₃ := hx 3 (by decide)
    simp only [Nat.zero_mul, Nat.add_zero, Nat.one_mul] at h₀ h₁
    unfold kfBfly4
    split_ifs <;> simp [h₀, h₁, h₂, h₃]

/-- The powers of a fifth root of one, from the parts of its first two. -/
theorem fifth_root {ω : ℂ} (hω : IsPrimitiveRoot ω 5) :
    ω ^ 4 = ω.re - ω.im * Complex.I ∧ ω ^ 3 = (ω ^ 2).re - (ω ^ 2).im * Complex.I := by
  have hfive := hω.pow_eq_one
  have hfour : ω ^ 4 = (starRingEnd ℂ) ω :=
    conj_eq_of_mul_eq_one (show 5 ≠ 0 by decide) hfive (by rw [← pow_succ', hfive])
  have hthree : ω ^ 3 = (starRingEnd ℂ) (ω ^ 2) :=
    conj_eq_of_mul_eq_one (show 5 ≠ 0 by decide) (by rw [pow_right_comm, hfive, one_pow])
      (by rw [← pow_add, hfive])
  have hparts : ∀ z : ℂ, (starRingEnd ℂ) z = z.re - z.im * Complex.I := fun z => by
    apply Complex.ext <;> simp
  exact ⟨hfour.trans (hparts ω), hthree.trans (hparts (ω ^ 2))⟩

/-- What `kf_bfly5` leaves in its cells, in terms of the twiddled inputs. -/
theorem kfBfly5_cells (hm : 0 < m) (mem : ℕ → Cpx ℝ) {t₁ t₂ t₃ t₄ ya yb : Cpx ℝ}
    (h₁ : (mem (o + m)).mul (st.twiddles (u * fstride)) = t₁)
    (h₂ : (mem (o + 2 * m)).mul (st.twiddles (2 * u * fstride)) = t₂)
    (h₃ : (mem (o + 3 * m)).mul (st.twiddles (3 * u * fstride)) = t₃)
    (h₄ : (mem (o + 4 * m)).mul (st.twiddles (4 * u * fstride)) = t₄)
    (ha : st.twiddles (fstride * m) = ya) (hb : st.twiddles (fstride * 2 * m) = yb) :
    let a := ya.toC
    let b := yb.toC
    let a' := ya.r - ya.i * Complex.I
    let b' := yb.r - yb.i * Complex.I
    (kfBfly5 st fstride m u o mem o).toC = (mem o).toC + t₁.toC + t₂.toC + t₃.toC + t₄.toC ∧
    (kfBfly5 st fstride m u o mem (o + m)).toC =
      (mem o).toC + a * t₁.toC + b * t₂.toC + b' * t₃.toC + a' * t₄.toC ∧
    (kfBfly5 st fstride m u o mem (o + 2 * m)).toC =
      (mem o).toC + b * t₁.toC + a' * t₂.toC + a * t₃.toC + b' * t₄.toC ∧
    (kfBfly5 st fstride m u o mem (o + 3 * m)).toC =
      (mem o).toC + b' * t₁.toC + a * t₂.toC + a' * t₃.toC + b * t₄.toC ∧
    (kfBfly5 st fstride m u o mem (o + 4 * m)).toC =
      (mem o).toC + a' * t₁.toC + b' * t₂.toC + b * t₃.toC + a * t₄.toC := by
  refine ⟨?_, ?_, ?_, ?_, ?_⟩ <;> apply Complex.ext <;>
    simp [kfBfly5, hm.ne', h₁, h₂, h₃, h₄, ha, hb, Cpx.add, Cpx.sub] <;> ring

theorem recombines_kfBfly5 (hst : Twiddled st w) (hm : 0 < m) (hlen : fstride * (5 * m) = st.nfft) (hu : u < m) :
    Recombines (w ^ fstride) 5 m u o (kfBfly5 st fstride m u o) where
  cells mem q hq := by
    have hω := hst.radixRoot hlen
    have ht₁ := hst.tw hlen (Nat.mul_comm u fstride) (by omega)
    have ht₂ := hst.tw hlen (Nat.mul_comm (2 * u) fstride) (by omega)
    have ht₃ := hst.tw hlen (Nat.mul_comm (3 * u) fstride) (by omega)
    have ht₄ := hst.tw hlen (Nat.mul_comm (4 * u) fstride) (by omega)
    have hya := hst.tw hlen rfl (show m < 5 * m by omega)
    have hyb := hst.tw hlen (show fstride * 2 * m = fstride * (m * 2) by ring) (by omega)
    rw [pow_mul] at hyb
    obtain ⟨hfour, hthree⟩ := fifth_root hω
    obtain ⟨h₀, h₁, h₂, h₃, h₄⟩ := kfBfly5_cells (u := u) (o := o) hm mem rfl rfl rfl rfl rfl rfl
    rw [← Cpx.toC_re, ← Cpx.toC_im, ← Cpx.toC_re, ← Cpx.toC_im, hya, hyb, ← hfour, ← hthree] at h₁ h₂ h₃ h₄
    simp only [Cpx.toC_mul, ht₁, ht₂, ht₃, ht₄] at h₀ h₁ h₂ h₃ h₄
    simp only [pow_cell hω.pow_eq_one, sum_range_succ, range_zero, sum_empty]
    generalize (w ^ fstride) ^ m = ω at *
    interval_cases q
    · simp [h₀]
      ring
    · simp [h₁]
      ring
    · simp [h₂]
      ring
    · simp [h₃]
      ring
    · simp [h₄]
      ring
  frame mem x hx := by
    have h₀ := hx 0 (by decide)
    have h₁ := hx 1 (by decide)
    have h₂ := hx 2 (by decide)
    have h₃ := hx 3 (by decide)
    have h₄ := hx 4 (by decide)
    simp only [Nat.zero_mul, Nat.add_zero, Nat.one_mul] at h₀ h₁
    simp [kfBfly5, h₀, h₁, h₂, h₃, h₄]

/-- One step of the index into the twiddle factors, which stays in the table. -/
theorem wrap_index {n i d : ℕ} (hi : i < n) (hd : d < n) :
    (if i + d ≥ n then i + d - n else i + d) = (i + d) % n := by
  split_ifs with h
  · rw [Nat.mod_eq_sub_mod h, Nat.mod_eq_of_lt (by omega)]
  · rw [Nat.mod_eq_of_lt (by omega)]

/-- **The sum of `kf_bfly_generic`**, whose index runs around the table. -/
theorem genericSum_spec (hst : Twiddled st w) (hlen : fstride * (p * m) = st.nfft) (hp : 0 < p) {k : ℕ}
    (hk : k < p * m) (scratch : ℕ → Cpx ℝ) :
    (genericSum st fstride p k scratch).1.toC = ∑ r ∈ range p, (w ^ fstride) ^ (r * k) * (scratch r).toC := by
  have hstep : fstride * k < st.nfft := by
    rw [← hlen]
    refine Nat.mul_lt_mul_of_pos_left hk (Nat.pos_of_ne_zero fun h => ?_)
    have := hst.pos
    rw [← hlen, h, Nat.zero_mul] at this
    exact Nat.lt_irrefl 0 this
  unfold genericSum
  refine (forLoop_induction (fun q (s : Cpx ℝ × ℕ) =>
    s.1.toC = ∑ r ∈ range q, (w ^ fstride) ^ (r * k) * (scratch r).toC ∧
      s.2 = (q - 1) * (fstride * k) % st.nfft) hp ?_ ?_).1
  · simp
  · rintro q ⟨sum, twidx⟩ hq _ ⟨hsum, hidx⟩
    dsimp only at hsum hidx ⊢
    have hwrap : (if twidx + fstride * k ≥ st.nfft then twidx + fstride * k - st.nfft else twidx + fstride * k) =
        q * (fstride * k) % st.nfft := by
      rw [wrap_index (hidx ▸ Nat.mod_lt _ hst.pos) hstep, hidx, Nat.mod_add_mod]
      congr 1
      obtain ⟨q', rfl⟩ := Nat.exists_eq_add_of_le' hq
      rw [Nat.add_sub_cancel, Nat.succ_mul]
    have htw : (st.twiddles (q * (fstride * k) % st.nfft)).toC = (w ^ fstride) ^ (q * k) := by
      rw [hst.twiddles _ (Nat.mod_lt _ hst.pos), ← pow_eq_pow_mod _ hst.prim.pow_eq_one, ← pow_mul]
      congr 1
      ring
    rw [hwrap, sum_range_succ, Cpx.toC_add, Cpx.toC_mul, htw, hsum, mul_comm (scratch q).toC]
    exact ⟨rfl, rfl⟩

/-- The cells of one butterfly are apart. -/
theorem cell_inj (hm : 0 < m) {o q q' : ℕ} (h : o + q * m = o + q' * m) : q = q' :=
  Nat.eq_of_mul_eq_mul_right hm (Nat.add_left_cancel h)

theorem recombines_kfBflyGeneric (hst : Twiddled st w) (hlen : fstride * (p * m) = st.nfft) (hu : u < m) (out : ℕ) :
    Recombines (w ^ fstride) p m u (out + u) (kfBflyGeneric st fstride m p u out) where
  cells mem q hq := by
    have hm : 0 < m := by omega
    have hk : u + q * m < p * m := by
      calc u + q * m < (q + 1) * m := by rw [Nat.succ_mul]; omega
        _ ≤ p * m := Nat.mul_le_mul_right m hq
    let part (i x : ℕ) : Prop := x = out + (u + i * m)
    have hdisj : ∀ i j x, 0 ≤ i → i < p → 0 ≤ j → j < p → part i x → part j x → i = j := by
      rintro i j x - - - - rfl hj
      simp only [part, ← Nat.add_assoc] at hj
      exact cell_inj hm hj
    obtain ⟨mem', -, hend⟩ := forLoop_disjoint part mem hdisj
      (fun i mem' x _ _ hx => Function.update_of_ne hx (genericSum st fstride p (u + i * m)
        fun q₁ => mem (out + (u + q₁ * m))).1 mem') (Nat.zero_le q) hq
    rw [kfBflyGeneric, Nat.add_assoc, hend _ rfl, Function.update_self, genericSum_spec hst hlen (by omega) hk]
    exact sum_congr rfl fun r _ => by rw [Nat.add_assoc]
  frame mem x hx :=
    forLoop_outside (fun i x => x = out + u + i * m) mem
      (fun i mem' _ _ hne => Function.update_of_ne (by rwa [← Nat.add_assoc]) _ _) fun i _ hi => hx i hi

/-! ## All butterflies of a stage -/

/-- A loop over the butterflies of a stage. -/
theorem forLoop_recombines {W : ℂ} {body : ℕ → (ℕ → Cpx ℝ) → ℕ → Cpx ℝ} {out : ℕ}
    (hbody : ∀ u < m, Recombines W p m u (out + u) (body u)) (mem : ℕ → Cpx ℝ) :
    (∀ u < m, ∀ q < p, (forLoop 0 m body mem (out + (u + q * m))).toC =
      ∑ r ∈ range p, W ^ (r * (u + q * m)) * (mem (out + (u + r * m))).toC) ∧
    ∀ x, ¬ (out ≤ x ∧ x < out + p * m) → forLoop 0 m body mem x = mem x := by
  let part (u x : ℕ) : Prop := ∃ q < p, x = out + u + q * m
  have hframe : ∀ i (mem : ℕ → Cpx ℝ) x, 0 ≤ i → i < m → ¬ part i x → body i mem x = mem x :=
    fun i mem x _ hi hx => (hbody i hi).frame mem x fun q hq heq => hx ⟨q, hq, heq⟩
  constructor
  · intro u hu q hq
    have hdisj : ∀ i j x, 0 ≤ i → i < m → 0 ≤ j → j < m → part i x → part j x → i = j := by
      rintro i j x - hi - hj ⟨q₁, -, hx⟩ ⟨q₂, -, hx'⟩
      have hcell : (i + q₁ * m) % m = (j + q₂ * m) % m := congrArg (· % m) (by omega)
      rwa [Nat.add_mul_mod_self_right, Nat.add_mul_mod_self_right, Nat.mod_eq_of_lt hi, Nat.mod_eq_of_lt hj] at hcell
    obtain ⟨mem', hstart, hend⟩ := forLoop_disjoint part mem hdisj hframe (Nat.zero_le u) hu
    rw [← Nat.add_assoc, hend _ ⟨q, hq, rfl⟩, (hbody u hu).cells mem' q hq]
    refine sum_congr rfl fun r hr => ?_
    rw [← Nat.add_assoc, hstart _ ⟨r, mem_range.mp hr, rfl⟩]
  · intro x hx
    refine forLoop_outside part mem (fun i mem h₁ h₂ => hframe i mem x h₁ h₂) ?_
    rintro i - hi ⟨q, hq, rfl⟩
    have hlast : (q + 1) * m ≤ p * m := Nat.mul_le_mul_right m hq
    rw [Nat.succ_mul] at hlast
    exact hx ⟨by omega, by omega⟩

/-- **The butterflies of one stage**, for any radix: each cell ends with the sum, over the cells of its butterfly, of
their values times powers of the root; no other cell changes. -/
theorem kfBfly_spec (hst : Twiddled st w) (hlen : fstride * (p * m) = st.nfft) (out : ℕ) (mem : ℕ → Cpx ℝ) :
    (∀ u < m, ∀ q < p, (kfBfly st fstride m p out mem (out + (u + q * m))).toC =
      ∑ r ∈ range p, (w ^ fstride) ^ (r * (u + q * m)) * (mem (out + (u + r * m))).toC) ∧
    ∀ x, ¬ (out ≤ x ∧ x < out + p * m) → kfBfly st fstride m p out mem x = mem x := by
  unfold kfBfly
  split
  · exact forLoop_recombines (fun k hk => recombines_kfBfly2 hst (by omega) hlen hk) mem
  · exact forLoop_recombines (fun k hk => recombines_kfBfly3 hst (by omega) hlen hk) mem
  · exact forLoop_recombines (fun k hk => recombines_kfBfly4 hst (by omega) hlen hk) mem
  · exact forLoop_recombines (fun u hu => recombines_kfBfly5 hst (by omega) hlen hu) mem
  · exact forLoop_recombines (fun u hu => recombines_kfBflyGeneric hst hlen hu out) mem

end AudioProcess
