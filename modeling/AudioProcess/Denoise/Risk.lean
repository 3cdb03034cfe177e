import AudioProcess.Denoise.CoreSpec
import AudioProcess.Lib.Rounding

/-!
# The risk and the noise of a tile, rounded

With every operation rounded as for `float` (`Rounding`), on macro-blocks of numbers. The SURE risk divides by the
real energy of a tile, the attenuation factor by its power; where the first quotient is a number, so is the second.

* `powerSTFT_le`: a power is at least each of its terms; **`energy_below_power`**;
* `NoiseLevel`, `tileNoise_bounds`, `blockNorm_bounds`, `sureTemp_bounds`: the constants;
* `noise_mul_energy_le`, **`quotient_of_riskQuotient`**: the two quotients of a tile;
* **`sureTile_of_not_quotient`**: a tile whose power does not divide its noise has no risk.
-/

namespace AudioProcess

open CFloat CLoop ExtFloat Rounding Rounding.Float

variable {R : Rounding}

/-- A coefficient whose parts are numbers. -/
def Cpx.IsFinite (z : Cpx R.Float) : Prop := ∃ a b : ℝ, z.r.val = fin a ∧ z.i.val = fin b

/-- The power of a coefficient, as the code computes it. -/
noncomputable def Cpx.power (z : Cpx R.Float) : R.Float := z.r * z.r + z.i * z.i

theorem Cpx.IsFinite.power_nonneg {z : Cpx R.Float} (hz : z.IsFinite) : fin 0 ≤ z.power.val := by
  obtain ⟨a, b, ha, hb⟩ := hz
  exact ExtFloat.le_trans (sq_nonneg ha) (le_val_add (sq_nonneg ha) (sq_nonneg hb)).1

/-! ## Power -/

section Power

variable {data : ℕ → ℕ → Cpx R.Float} {r₀ r₁ c₀ c₁ : ℕ}

theorem zero_le_val_zero : fin 0 ≤ (ofRat 0 : R.Float).val := by
  rw [val_zero]
  exact le_refl (0 : ℝ)

/-- **A power is at least each of its terms.** -/
theorem powerSTFT_le (h : ∀ x ≤ r₁, ∀ y ≤ c₁, (data x y).IsFinite) : fin 0 ≤ (powerSTFT data r₀ r₁ c₀ c₁).val ∧
    ∀ x y, r₀ ≤ x → x ≤ r₁ → c₀ ≤ y → y ≤ c₁ → (data x y).power.val ≤ (powerSTFT data r₀ r₁ c₀ c₁).val := by
  obtain ⟨hnonneg, hcell⟩ := forLoop_forLoop_add_le (fun x y => (data x y).power) r₀ c₀
    (fun x y hx hy => (h x (Nat.le_of_lt_succ hx) y (Nat.le_of_lt_succ hy)).power_nonneg) zero_le_val_zero
  refine ⟨ExtFloat.le_trans zero_le_val_zero hnonneg, fun x y hx hx' hy hy' => ?_⟩
  exact hcell x y hx (Nat.lt_succ_of_le hx') hy (Nat.lt_succ_of_le hy')

end Power

/-! ## Power and energy -/

section Energy

/-- What a number was before its rounding. -/
theorem le_of_round {x q : ℝ} (hx : 0 ≤ x) (h : R.round x = fin q) (hq : q ≤ 1) : x ≤ tol * (q + tiny) := by
  rcases le_total x 4 with hx4 | hx4
  · obtain ⟨y, hy, -, -, hle⟩ := round_bounds (R := R) hx (hx4.trans (by norm_num))
    rw [h, ExtFloat.fin.injEq] at hy
    rwa [hy]
  · obtain ⟨y, hy, -, -, hle⟩ := round_bounds (R := R) (x := 4) (by norm_num) (by norm_num)
    have hmono := R.mono 4 x hx4
    rw [hy, h, fin_le] at hmono
    unfold tol tiny at hle
    norm_num at hle
    linarith

/-- The normalized square, from the exact one. -/
theorem sq_le_of_near {m u : ℝ} (hm : |m - u| ≤ |u| / 2 ^ 24 + 1 / 2 ^ 150) : m * m ≤ 1.0005 * (u * u) + tiny := by
  have hle : |m| ≤ |u| * (1 + 1 / 2 ^ 24) + 1 / 2 ^ 150 := by
    have := abs_sub_abs_le_abs_sub m u
    linarith
  have hsq : |m| * |m| ≤ (|u| * (1 + 1 / 2 ^ 24) + 1 / 2 ^ 150) * (|u| * (1 + 1 / 2 ^ 24) + 1 / 2 ^ 150) :=
    mul_self_le_mul_self (abs_nonneg m) hle
  rw [abs_mul_abs_self] at hsq
  have hu := abs_mul_abs_self u
  have hcross := sq_nonneg (0.01 * |u| - 100 * ((1 + 1 / 2 ^ 24) * (1 / 2 ^ 150)) : ℝ)
  unfold tiny
  norm_num at hsq hcross ⊢
  nlinarith

variable {ν : R.Float} {v : ℝ}

/-- The square of a normalized part is bounded by the power of its coefficient. -/
theorem scale_below (hν : ν.val = fin v) (hv : v * v ≤ 1300) {z : Cpx R.Float} (hz : z.IsFinite) :
    TermBelow (1.002 * (v * v)) ((1.002 * (v * v) + 3) * tiny) (z.r * ν * (z.r * ν)) z.power := by
  refine ⟨hz.power_nonneg, fun y hy hpower => ?_⟩
  obtain ⟨a, b, ha, hb⟩ := hz
  obtain ⟨q, hq, hq₀, hqy⟩ : ∃ q, (z.r * z.r).val = fin q ∧ 0 ≤ q ∧ q ≤ y := by
    refine exists_fin (sq_nonneg ha) ?_
    rw [← hpower]
    exact (le_val_add (sq_nonneg ha) (sq_nonneg hb)).1
  have ha₂ : a * a ≤ tol * (q + tiny) := by
    rw [val_mul, ha, fin_mul, fix_fin] at hq
    exact le_of_round (mul_self_nonneg a) hq (hqy.trans hy)
  -- the normalized part
  have hav : a * v * (a * v) ≤ 2600 := by
    have hq1 : a * a ≤ 2 := by
      unfold tol tiny at ha₂
      norm_num at ha₂
      linarith
    calc a * v * (a * v) = a * a * (v * v) := by ring
      _ ≤ 2 * 1300 := mul_le_mul hq1 hv (mul_self_nonneg v) (by norm_num)
      _ = 2600 := by norm_num
  have habs : |a * v| ≤ 51 := abs_le_of_sq_le_sq (by linarith) (by norm_num)
  obtain ⟨m, hm, hnear⟩ := round_near (R := R) (habs.trans (by norm_num))
  have hm₂ := sq_le_of_near hnear
  obtain ⟨x, hx, hx₀, hxle, -⟩ := round_bounds (R := R) (mul_self_nonneg m) (by
    unfold tiny at hm₂
    norm_num at hm₂ ⊢
    linarith)
  refine ⟨x, by rw [val_mul, val_mul, ha, hν, fin_mul, fix_fin, hm, fin_mul, fix_fin, hx], hx₀, ?_⟩
  have hv₀ := mul_self_nonneg v
  have htiny := tiny_pos
  have hprod : a * v * (a * v) ≤ tol * (v * v * (y + tiny)) := by
    calc a * v * (a * v) = a * a * (v * v) := by ring
      _ ≤ tol * (y + tiny) * (v * v) := by
          refine mul_le_mul_of_nonneg_right (ha₂.trans ?_) hv₀
          exact mul_le_mul_of_nonneg_left (by linarith) (zero_le_one.trans one_le_tol)
      _ = tol * (v * v * (y + tiny)) := by ring
  have hw : 0 ≤ v * v * (y + tiny) := mul_nonneg hv₀ (by linarith)
  have hm₃ : m * m ≤ 1.0005 * (tol * (v * v * (y + tiny))) + tiny := by linarith
  have hbound : x ≤ 1.002 * (v * v * (y + tiny)) + 3 * tiny := by
    generalize v * v * (y + tiny) = w at hw hm₃ ⊢
    unfold tol at hxle hm₃
    norm_num at hxle hm₃ ⊢
    linarith
  linarith

/-- **The energy of a tile is bounded by its power.** -/
theorem energy_below_power (hν : ν.val = fin v) (hv : v * v ≤ 1300) {data : ℕ → ℕ → Cpx R.Float} {r₀ r₁ c₀ c₁ : ℕ}
    (hr : r₀ ≤ r₁ + 1) (hc : c₀ ≤ c₁ + 1) (hcount : (r₁ + 1 - r₀) * (c₁ + 1 - c₀) ≤ 128)
    (h : ∀ x ≤ r₁, ∀ y ≤ c₁, (data x y).IsFinite) {p : ℝ} (hp : p ≤ 1)
    (hpower : (powerSTFT data r₀ r₁ c₀ c₁).val = fin p) :
    ∃ e, (energyRealSTFT (fun x y => (data x y).scale ν) r₀ r₁ c₀ c₁).val = fin e ∧ 0 ≤ e ∧
      e ≤ 1.003 * (v * v) * p + 1 / 2 ^ 130 := by
  have hv₀ := mul_self_nonneg v
  have htiny := tiny_pos
  have hs : Slack (1.002 * (v * v)) ((1.002 * (v * v) + 3) * tiny)
      ((1.002 * (v * v) + 3) * tiny + (1.002 * (v * v) + 1) * tiny) := by
    refine ⟨by linarith, ?_, by positivity, le_rfl, ?_⟩
    · norm_num
      linarith
    · unfold tiny
      norm_num
      linarith
  have hbelow := Below.forLoop hs hr hc hcount (fun x y => (data x y).r * ν * ((data x y).r * ν))
    (fun x y => (data x y).power)
    fun x y hx hy => scale_below hν hv (h x (Nat.le_of_lt_succ hx) y (Nat.le_of_lt_succ hy))
  obtain ⟨e, he, he₀, hle⟩ := hbelow.bound hcount (by linarith) (by positivity) hp hpower
  refine ⟨e, he, he₀, hle.trans ?_⟩
  have hp₀ : 0 ≤ v * v * p := by
    have hnonneg : fin 0 ≤ (powerSTFT data r₀ r₁ c₀ c₁).val := (powerSTFT_le h).1
    rw [hpower] at hnonneg
    exact mul_nonneg hv₀ hnonneg
  have hc : 128 * ((1.002 * (v * v) + 3) * tiny + (1.002 * (v * v) + 1) * tiny) ≤ 1 / 2 ^ 130 / 1.0001 := by
    unfold tiny
    norm_num
    linarith
  norm_num at hc ⊢
  linarith

end Energy

/-! ## The constants -/

/-- `sigma_hanning_noise` of a handle is the number `σ`, and `win_size` an `int` from 2 on. -/
structure NoiseLevel (c : Config R.Float) (σ : ℝ) : Prop where
  sigma : c.sigmaHanningNoise.val = fin σ
  le_sigma : 0.0287 ≤ σ
  sigma_le : σ ≤ 0.0289
  two_le : 2 ≤ c.winSize
  win_le : c.winSize < 2 ^ 31

theorem sigmaHanning_bounds : ∃ σ, (sigmaHanning : R.Float).val = fin σ ∧ 0.0287 ≤ σ ∧ σ ≤ 0.0289 := by
  have hroot₁ : 0.6123 ≤ Real.sqrt ((0.375 : ℚ) : ℝ) := Real.le_sqrt_of_sq_le (by norm_num)
  have hroot₂ : Real.sqrt ((0.375 : ℚ) : ℝ) ≤ 0.6124 := by
    rw [Real.sqrt_le_left (by norm_num)]
    norm_num
  have hroot : Approx 2 (sqrt (ofRat 0.375) : R.Float) (Real.sqrt ((0.375 : ℚ) : ℝ)) :=
    (Approx.ofRat (by norm_num) (by norm_num)).sqrt (by decide) (le_trans (by norm_num) hroot₁)
      (hroot₂.trans (by norm_num))
  have hlit : Approx 1 (ofRat 0.047 : R.Float) ((0.047 : ℚ) : ℝ) := Approx.ofRat (by norm_num) (by norm_num)
  have hprod := hlit.mul hroot (by decide) (by push_cast at hroot₁ hroot₂ ⊢; norm_num at hroot₁ ⊢; linarith)
    (by push_cast at hroot₁ hroot₂ ⊢; norm_num at hroot₂ ⊢; linarith)
  obtain ⟨σ, hσ, -, h₁, h₂⟩ := hprod.bounds (by decide)
  refine ⟨σ, hσ, ?_, ?_⟩ <;> push_cast at * <;> norm_num at * <;> linarith

theorem NoiseLevel.of_init {c : Config R.Float} (hsigma : c.sigmaHanningNoise = sigmaHanning) (hwin : 2 ≤ c.winSize)
    (hmax : (c.winSize : ℤ) ≤ CInt.intMax) : ∃ σ, NoiseLevel c σ := by
  obtain ⟨σ, hσ, h₁, h₂⟩ := sigmaHanning_bounds (R := R)
  refine ⟨σ, by rw [hsigma, hσ], h₁, h₂, hwin, ?_⟩
  unfold CInt.intMax at hmax
  omega

/-- The number of cells of a tile. -/
def tileSize (T Fq : ℕ) : ℕ := maxNblkTime / 2 ^ T * (maxNblkFreq / 2 ^ Fq)

/-- `lambda * TT * FF * pow(sigma_hanning_noise, 2) * win_size`. -/
def tileNoise {F : Type} [CFloat F] (c : Config F) (T Fq : ℕ) : F :=
  ofRat (mLambda T Fq) * ofNat (maxNblkTime / 2 ^ T) * ofNat (maxNblkFreq / 2 ^ Fq) *
    (c.sigmaHanningNoise * c.sigmaHanningNoise) * ofNat c.winSize

theorem mLambda_bounds : ∀ T < nblkTime, ∀ Fq < nblkFreq, 1 ≤ mLambda T Fq ∧ mLambda T Fq ≤ 5 := by decide +kernel

theorem tileSize_bounds : ∀ T < nblkTime, ∀ Fq < nblkFreq, (1 ≤ maxNblkTime / 2 ^ T ∧ maxNblkTime / 2 ^ T ≤ 8) ∧
    (1 ≤ maxNblkFreq / 2 ^ Fq ∧ maxNblkFreq / 2 ^ Fq ≤ 16) ∧ 2 ≤ tileSize T Fq ∧ tileSize T Fq ≤ 128 := by
  decide +kernel

/-- A product of two bounded numbers. -/
theorem mul_bounds {x y a b a' b' : ℝ} (ha : 0 ≤ a) (ha' : 0 ≤ a') (hx : a ≤ x ∧ x ≤ b) (hy : a' ≤ y ∧ y ≤ b') :
    a * a' ≤ x * y ∧ x * y ≤ b * b' :=
  ⟨mul_le_mul hx.1 hy.1 ha' (ha.trans hx.1), mul_le_mul hx.2 hy.2 (ha'.trans hy.1) (ha.trans (hx.1.trans hx.2))⟩

theorem abs_mul_le_of_le {x y a b : ℝ} (hx : |x| ≤ a) (hy : |y| ≤ b) : |x * y| ≤ a * b :=
  (abs_mul x y).trans_le (mul_le_mul hx hy (abs_nonneg y) ((abs_nonneg x).trans hx))

section Constants

variable {c : Config R.Float} {σ : ℝ}

theorem NoiseLevel.sigma_pos (hc : NoiseLevel c σ) : 0 < σ := lt_of_lt_of_le (by norm_num) hc.le_sigma

theorem NoiseLevel.sq_bounds (hc : NoiseLevel c σ) : 0.000823 ≤ σ * σ ∧ σ * σ ≤ 0.000836 := by
  have h := mul_bounds (by norm_num) (by norm_num) ⟨hc.le_sigma, hc.sigma_le⟩ ⟨hc.le_sigma, hc.sigma_le⟩
  norm_num at h ⊢
  constructor <;> linarith

theorem NoiseLevel.win_bounds (hc : NoiseLevel c σ) : (2 : ℝ) ≤ c.winSize ∧ (c.winSize : ℝ) ≤ 2 ^ 31 :=
  ⟨by exact_mod_cast hc.two_le, by exact_mod_cast hc.win_le.le⟩

theorem NoiseLevel.sq_approx (hc : NoiseLevel c σ) :
    Approx 1 (c.sigmaHanningNoise * c.sigmaHanningNoise) (σ * σ) := by
  have hσ := Approx.of_eq hc.sigma hc.sigma_pos
  have h := hc.sq_bounds
  exact hσ.mul hσ (by decide) (le_trans (by norm_num) h.1) (h.2.trans (by norm_num))

theorem NoiseLevel.win_approx (hc : NoiseLevel c σ) : Approx 1 (CFloat.ofNat c.winSize : R.Float) c.winSize :=
  Approx.ofNat (by have := hc.two_le; omega) (hc.win_le.le.trans (by norm_num))

/-- A literal that stands before the noise power. -/
theorem noise_bounds (hc : NoiseLevel c σ) {a : R.Float} {k : ℕ} {x : ℝ} (ha : Approx k a x) (hk : k ≤ 32)
    (hx : 1 ≤ x ∧ x ≤ 1000) : ∃ n, (a * (c.sigmaHanningNoise * c.sigmaHanningNoise) * ofNat c.winSize).val = fin n ∧
      0 < n ∧ 0.9999 * (x * (σ * σ * c.winSize)) ≤ n ∧ n ≤ 1.0001 * (x * (σ * σ * c.winSize)) ∧ n ≤ 2 ^ 40 := by
  have h₁ := mul_bounds (by norm_num) (by norm_num) hx hc.sq_bounds
  have h₂ := mul_bounds (by norm_num) (by norm_num) h₁ hc.win_bounds
  norm_num at h₁ h₂
  have hprod := (ha.mul hc.sq_approx (by omega) (le_trans (by norm_num) h₁.1) (h₁.2.trans (by norm_num))).mul
    hc.win_approx (by omega) (le_trans (by norm_num) h₂.1) (h₂.2.trans (by norm_num))
  obtain ⟨n, hn, hn₀, hge, hle⟩ := hprod.bounds (by omega)
  rw [mul_assoc x] at hge hle h₂
  refine ⟨n, hn, hn₀, hge, hle, ?_⟩
  norm_num
  linarith

theorem tileNoise_bounds (hc : NoiseLevel c σ) {T Fq : ℕ} (hT : T < nblkTime) (hFq : Fq < nblkFreq) :
    ∃ n, (tileNoise c T Fq).val = fin n ∧ 0 < n ∧
      0.9999 * ((mLambda T Fq : ℝ) * tileSize T Fq * (σ * σ * c.winSize)) ≤ n ∧
      n ≤ 1.0001 * ((mLambda T Fq : ℝ) * tileSize T Fq * (σ * σ * c.winSize)) ∧ n ≤ 2 ^ 40 := by
  obtain ⟨hl₁, hl₂⟩ := mLambda_bounds T hT Fq hFq
  obtain ⟨⟨hTT₁, hTT₂⟩, ⟨hFF₁, hFF₂⟩, -, -⟩ := tileSize_bounds T hT Fq hFq
  have hl : (1 : ℝ) ≤ mLambda T Fq ∧ (mLambda T Fq : ℝ) ≤ 5 := ⟨by exact_mod_cast hl₁, by exact_mod_cast hl₂⟩
  have hTT : (1 : ℝ) ≤ (maxNblkTime / 2 ^ T : ℕ) ∧ ((maxNblkTime / 2 ^ T : ℕ) : ℝ) ≤ 8 :=
    ⟨by exact_mod_cast hTT₁, by exact_mod_cast hTT₂⟩
  have hFF : (1 : ℝ) ≤ (maxNblkFreq / 2 ^ Fq : ℕ) ∧ ((maxNblkFreq / 2 ^ Fq : ℕ) : ℝ) ≤ 16 :=
    ⟨by exact_mod_cast hFF₁, by exact_mod_cast hFF₂⟩
  have h₁ := mul_bounds zero_le_one zero_le_one hl hTT
  have h₂ := mul_bounds (by norm_num) zero_le_one h₁ hFF
  norm_num at h₁ h₂
  have hlambda : Approx 1 (ofRat (mLambda T Fq) : R.Float) (mLambda T Fq) :=
    Approx.ofRat (le_trans (by norm_num) hl.1) (hl.2.trans (by norm_num))
  have happrox := (hlambda.mul (Approx.ofNat hTT₁ (hTT₂.trans (by norm_num))) (by decide)
    (le_trans (by norm_num) h₁.1) (h₁.2.trans (by norm_num))).mul
      (Approx.ofNat hFF₁ (hFF₂.trans (by norm_num))) (by decide) (le_trans (by norm_num) h₂.1)
      (h₂.2.trans (by norm_num))
  have h := noise_bounds hc happrox (by decide) ⟨h₂.1, h₂.2.trans (by norm_num)⟩
  unfold tileSize
  push_cast at h ⊢
  rwa [mul_assoc (mLambda T Fq : ℝ)] at h

theorem blockNorm_bounds (hc : NoiseLevel c σ) :
    ∃ v, (blockNorm c).val = fin v ∧ v * v * (σ * σ * c.winSize) ≤ 2.001 ∧ v * v ≤ 1300 := by
  have hwin := hc.win_bounds
  have hroot : 1 ≤ Real.sqrt c.winSize ∧ Real.sqrt c.winSize ≤ 2 ^ 16 := by
    refine ⟨Real.le_sqrt_of_sq_le (by linarith), ?_⟩
    rw [Real.sqrt_le_left (by norm_num)]
    linarith
  have htwo : 1 ≤ Real.sqrt ((2 : ℚ) : ℝ) ∧ Real.sqrt ((2 : ℚ) : ℝ) ≤ 2 := by
    refine ⟨Real.le_sqrt_of_sq_le (by norm_num), ?_⟩
    rw [Real.sqrt_le_left (by norm_num)]
    norm_num
  have hden := mul_bounds zero_le_one (by norm_num) hroot ⟨hc.le_sigma, hc.sigma_le⟩
  norm_num at hden
  have hden₀ : 0 < Real.sqrt c.winSize * σ := lt_of_lt_of_le (by norm_num) hden.1
  have hquot : 1 / 2 ^ 100 ≤ Real.sqrt ((2 : ℚ) : ℝ) / (Real.sqrt c.winSize * σ) ∧
      Real.sqrt ((2 : ℚ) : ℝ) / (Real.sqrt c.winSize * σ) ≤ 2 ^ 100 := by
    rw [le_div_iff₀ hden₀, div_le_iff₀ hden₀]
    constructor
    · refine le_trans ?_ htwo.1
      norm_num
      linarith
    · refine htwo.2.trans ?_
      norm_num
      linarith
  have happrox := ((Approx.ofRat (R := R) (q := 2) (by norm_num) (by norm_num)).sqrt (by decide)
    (le_trans (by norm_num) htwo.1) (htwo.2.trans (by norm_num))).div
      ((hc.win_approx.sqrt (by decide) (le_trans (by norm_num) hroot.1) (hroot.2.trans (by norm_num))).mul
        (Approx.of_eq hc.sigma hc.sigma_pos) (by decide) (le_trans (by norm_num) hden.1) (hden.2.trans (by norm_num)))
      (by decide) hquot.1 hquot.2
  obtain ⟨v, hv, hv₀, -, hle⟩ := happrox.bounds (by decide)
  have hD : 0.001646 ≤ σ * σ * c.winSize := by
    have h := (mul_bounds (by norm_num) (by norm_num) hc.sq_bounds hwin).1
    norm_num at h ⊢
    linarith
  have hmul : v * (Real.sqrt c.winSize * σ) ≤ 1.0001 * Real.sqrt ((2 : ℚ) : ℝ) := by
    rw [mul_div_assoc'] at hle
    exact (le_div_iff₀ hden₀).mp hle
  have hsq : v * v * (σ * σ * c.winSize) ≤ 2.001 := by
    have h := mul_self_le_mul_self (by positivity) hmul
    have h₁ := Real.mul_self_sqrt (Nat.cast_nonneg (α := ℝ) c.winSize)
    have h₂ := Real.mul_self_sqrt (show (0 : ℝ) ≤ (2 : ℚ) by norm_num)
    calc v * v * (σ * σ * c.winSize) = v * v * (σ * σ * (Real.sqrt c.winSize * Real.sqrt c.winSize)) := by rw [h₁]
      _ = v * (Real.sqrt c.winSize * σ) * (v * (Real.sqrt c.winSize * σ)) := by ring
      _ ≤ 1.0001 * Real.sqrt ((2 : ℚ) : ℝ) * (1.0001 * Real.sqrt ((2 : ℚ) : ℝ)) := h
      _ = 1.0001 * 1.0001 * (Real.sqrt ((2 : ℚ) : ℝ) * Real.sqrt ((2 : ℚ) : ℝ)) := by ring
      _ = 1.0001 * 1.0001 * ((2 : ℚ) : ℝ) := by rw [h₂]
      _ ≤ 2.001 := by norm_num
  refine ⟨v, hv, hsq, ?_⟩
  have := mul_le_mul_of_nonneg_left hD (mul_self_nonneg v)
  linarith

end Constants

/-! ## The risk of a tile -/

/-- `temp` of `blockThreshold_adaptive_block`. -/
def sureTemp {F : Type} [CFloat F] (lambda size : F) : F :=
  lambda * lambda * (size * size) - ofRat 2 * lambda * size * (size - ofRat 2)

theorem sureTile_eq {F : Type} [CFloat F] (lambda size energy : F) : sureTile lambda size energy =
    size + sureTemp lambda size / energy * ofBool (energy > lambda * size) +
      (energy - ofRat 2 * size) * ofBool (energy ≤ lambda * size) := rfl

/-- `temp` without rounding. -/
def exactTemp (T Fq : ℕ) : ℚ :=
  let l := mLambda T Fq
  let s : ℚ := tileSize T Fq
  l * l * (s * s) - 2 * l * s * (s - 2)

theorem exactTemp_bounds : ∀ T < nblkTime, ∀ Fq < nblkFreq, 9 ≤ mLambda T Fq * tileSize T Fq ∧
    4 * (mLambda T Fq * tileSize T Fq) ≤ |exactTemp T Fq| ∧ |exactTemp T Fq| ≤ 100000 := by
  decide +kernel

section Risk

variable {T Fq : ℕ}

/-- **`temp` is at least 3.8 times the bound on the energy.** -/
theorem sureTemp_bounds (hT : T < nblkTime) (hFq : Fq < nblkFreq) :
    ∃ t, (sureTemp (ofRat (mLambda T Fq)) (ofNat (tileSize T Fq)) : R.Float).val = fin t ∧
      3.8 * ((mLambda T Fq : ℝ) * tileSize T Fq) ≤ |t| ∧ 34 ≤ |t| ∧ |t| ≤ 2 ^ 20 := by
  obtain ⟨hl₁, hl₂⟩ := mLambda_bounds T hT Fq hFq
  obtain ⟨-, -, hs₁, hs₂⟩ := tileSize_bounds T hT Fq hFq
  obtain ⟨hlow, hfour, hhigh⟩ := exactTemp_bounds T hT Fq hFq
  have hl : |((mLambda T Fq : ℚ) : ℝ)| ≤ 5 := by
    rw [abs_of_nonneg (by exact_mod_cast zero_le_one.trans hl₁)]
    exact_mod_cast hl₂
  have hs : |(tileSize T Fq : ℝ)| ≤ 128 := by
    rw [abs_of_nonneg (Nat.cast_nonneg _)]
    exact_mod_cast hs₂
  have hs' : |(tileSize T Fq : ℝ) - 2| ≤ 128 := by
    have : (2 : ℝ) ≤ tileSize T Fq := by exact_mod_cast hs₁
    have h' : (tileSize T Fq : ℝ) ≤ 128 := by exact_mod_cast hs₂
    rw [abs_of_nonneg (by linarith)]
    linarith
  -- the operations in order, with a bound on the error of each
  have hlambda : Near (ofRat (mLambda T Fq) : R.Float) (mLambda T Fq) (1 / 2 ^ 21) :=
    Near.ofRat hl (by norm_num) (by norm_num)
  have hsize : Near (CFloat.ofNat (tileSize T Fq) : R.Float) (tileSize T Fq) (1 / 2 ^ 16) := by
    have h := Near.ofRat (R := R) (q := (tileSize T Fq : ℕ)) (X := 128) (τ := 1 / 2 ^ 16) (by simpa using hs)
      (by norm_num) (by norm_num)
    rwa [Rat.cast_natCast] at h
  have htwo : Near (ofRat 2 : R.Float) 2 (1 / 2 ^ 22) := by
    have h := Near.ofRat (R := R) (q := 2) (X := 2) (τ := 1 / 2 ^ 22) (by norm_num) (by norm_num) (by norm_num)
    simpa using h
  have hfirst : Near ((ofRat (mLambda T Fq) : R.Float) * ofRat (mLambda T Fq) *
      (CFloat.ofNat (tileSize T Fq) * CFloat.ofNat (tileSize T Fq)))
      ((mLambda T Fq : ℝ) * mLambda T Fq * ((tileSize T Fq : ℝ) * tileSize T Fq)) (1 / 2) :=
    (hlambda.mul hlambda (τ := 1 / 2 ^ 17) hl hl (by norm_num) (by norm_num)).mul
      (hsize.mul hsize (τ := 1 / 2 ^ 7) hs hs (by norm_num) (by norm_num))
      (abs_mul_le_of_le hl hl) (abs_mul_le_of_le hs hs) (by norm_num) (by norm_num)
  have habs : |(2 : ℝ)| ≤ 2 := (abs_of_pos two_pos).le
  have hsecond : Near ((ofRat 2 : R.Float) * ofRat (mLambda T Fq) * CFloat.ofNat (tileSize T Fq) *
      (CFloat.ofNat (tileSize T Fq) - ofRat 2))
      (2 * (mLambda T Fq : ℝ) * tileSize T Fq * ((tileSize T Fq : ℝ) - 2)) (1 / 4) :=
    ((htwo.mul hlambda (τ := 1 / 2 ^ 18) habs hl (by norm_num) (by norm_num)).mul hsize
      (τ := 1 / 2 ^ 10) (abs_mul_le_of_le habs hl) hs (by norm_num) (by norm_num)).mul
      (hsize.sub htwo (τ := 1 / 2 ^ 15) hs habs (by norm_num) (by norm_num))
      (abs_mul_le_of_le (abs_mul_le_of_le habs hl) hs) hs' (by norm_num) (by norm_num)
  obtain ⟨t, ht, hnear⟩ := hfirst.sub hsecond (τ := 1)
    (abs_mul_le_of_le (abs_mul_le_of_le hl hl) (abs_mul_le_of_le hs hs))
    (abs_mul_le_of_le (abs_mul_le_of_le (abs_mul_le_of_le habs hl) hs) hs') (by norm_num) (by norm_num)
  have hexact : (mLambda T Fq : ℝ) * mLambda T Fq * ((tileSize T Fq : ℝ) * tileSize T Fq) -
      2 * (mLambda T Fq : ℝ) * tileSize T Fq * ((tileSize T Fq : ℝ) - 2) = (exactTemp T Fq : ℝ) := by
    unfold exactTemp
    push_cast
    ring
  rw [hexact] at hnear
  have hlow' : (9 : ℝ) ≤ mLambda T Fq * tileSize T Fq := by exact_mod_cast hlow
  have hfour' : 4 * ((mLambda T Fq : ℝ) * tileSize T Fq) ≤ |(exactTemp T Fq : ℝ)| := by exact_mod_cast hfour
  have hhigh' : |(exactTemp T Fq : ℝ)| ≤ 100000 := by exact_mod_cast hhigh
  have h₁ := abs_sub_abs_le_abs_sub t (exactTemp T Fq)
  have h₂ := abs_sub_abs_le_abs_sub (exactTemp T Fq : ℝ) t
  rw [abs_sub_comm] at h₂
  refine ⟨t, ht, by linarith, by linarith, ?_⟩
  norm_num
  linarith

/-- The errors together. -/
theorem noise_mul_energy_le {L D v p e n t : ℝ} (hL : 0 ≤ L) (hD : 0 ≤ D) (hp : 0 ≤ p) (hn : n ≤ 1.0001 * (L * D))
    (hv : v * v * D ≤ 2.001) (he : e ≤ 1.003 * (v * v) * p + 1 / 2 ^ 130) (hlow : 1 / 2 ^ 124 ≤ e)
    (ht : 3.8 * L ≤ |t|) : n * e ≤ |t| * p := by
  have he₀ : 0 ≤ e := le_trans (by norm_num) hlow
  have hrel : e ≤ 1.02 * (v * v * p) := by
    norm_num at he hlow ⊢
    have := mul_nonneg (mul_self_nonneg v) hp
    linarith
  calc n * e ≤ 1.0001 * (L * D) * (1.02 * (v * v * p)) := mul_le_mul hn hrel he₀ (by positivity)
    _ = 1.0001 * 1.02 * (v * v * D) * (L * p) := by ring
    _ ≤ 1.0001 * 1.02 * 2.001 * (L * p) := by gcongr
    _ ≤ 3.8 * L * p := by
        have := mul_nonneg hL hp
        linarith
    _ ≤ |t| * p := mul_le_mul_of_nonneg_right ht hp

variable {c : Config R.Float} {σ : ℝ} {block : ℕ → ℕ → Cpx R.Float} {ii jj : ℕ}

/-- The power of a tile. -/
@[irreducible] noncomputable def tilePower (block : ℕ → ℕ → Cpx R.Float) (T Fq ii jj : ℕ) : R.Float :=
  powerSTFT block (maxNblkTime / 2 ^ T * ii) (maxNblkTime / 2 ^ T * (ii + 1) - 1)
    (maxNblkFreq / 2 ^ Fq * jj) (maxNblkFreq / 2 ^ Fq * (jj + 1) - 1)

/-- The real energy of a tile. -/
noncomputable def tileEnergy (norm : ℕ → ℕ → Cpx R.Float) (T Fq ii jj : ℕ) : R.Float :=
  energyRealSTFT norm (maxNblkTime / 2 ^ T * ii) (maxNblkTime / 2 ^ T * (ii + 1) - 1)
    (maxNblkFreq / 2 ^ Fq * jj) (maxNblkFreq / 2 ^ Fq * (jj + 1) - 1)

/-- The quotient in the risk of a tile. -/
noncomputable def riskQuotient (c : Config R.Float) (block : ℕ → ℕ → Cpx R.Float) (T Fq ii jj : ℕ) : R.Float :=
  sureTemp (ofRat (mLambda T Fq)) (ofNat (tileSize T Fq)) /
    tileEnergy (fun t k => (block t k).scale (blockNorm c)) T Fq ii jj

/-- A macro-block of numbers. -/
def FiniteBlock (block : ℕ → ℕ → Cpx R.Float) : Prop :=
  ∀ t < maxNblkTime, ∀ k < maxNblkFreq, (block t k).IsFinite

theorem FiniteBlock.tilePower_nonneg (h : FiniteBlock block) (hii : ii < 2 ^ T) (hjj : jj < 2 ^ Fq) :
    fin 0 ≤ (tilePower block T Fq ii jj).val := by
  unfold tilePower
  exact (powerSTFT_le fun x hx y hy => h x (tile_lt (by decide) hii hx) y (tile_lt (by decide) hjj hy)).1

theorem FiniteBlock.energy_le (hc : NoiseLevel c σ) (h : FiniteBlock block) (hT : T < nblkTime) (hFq : Fq < nblkFreq)
    (hii : ii < 2 ^ T) (hjj : jj < 2 ^ Fq) {p : ℝ} (hp : p ≤ 1) (hpower : (tilePower block T Fq ii jj).val = fin p) :
    ∃ e v, (tileEnergy (fun t k => (block t k).scale (blockNorm c)) T Fq ii jj).val = fin e ∧ 0 ≤ e ∧
      e ≤ 1.003 * (v * v) * p + 1 / 2 ^ 130 ∧ v * v * (σ * σ * c.winSize) ≤ 2.001 ∧ v * v ≤ 1300 := by
  unfold tilePower at hpower
  obtain ⟨v, hv, hvD, hv₂⟩ := blockNorm_bounds hc
  obtain ⟨⟨hTT, -⟩, ⟨hFF, -⟩, -, hsize⟩ := tileSize_bounds T hT Fq hFq
  have hrows : maxNblkTime / 2 ^ T * (ii + 1) - 1 + 1 = maxNblkTime / 2 ^ T * ii + maxNblkTime / 2 ^ T := by
    rw [Nat.mul_succ]
    omega
  have hcols : maxNblkFreq / 2 ^ Fq * (jj + 1) - 1 + 1 = maxNblkFreq / 2 ^ Fq * jj + maxNblkFreq / 2 ^ Fq := by
    rw [Nat.mul_succ]
    omega
  obtain ⟨e, he, he₀, hle⟩ := energy_below_power hv hv₂ (by omega) (by omega) (by
      rw [hrows, hcols, Nat.add_sub_cancel_left, Nat.add_sub_cancel_left]
      exact hsize) (fun x hx y hy => h x (tile_lt (by decide) hii hx) y (tile_lt (by decide) hjj hy)) hp hpower
  exact ⟨e, v, he, he₀, hle, hvD, hv₂⟩

/-- An energy that the risk can be divided by is not too small. -/
theorem energy_of_riskQuotient (hT : T < nblkTime) (hFq : Fq < nblkFreq) {e q : ℝ} (he₀ : 0 ≤ e)
    (he : (tileEnergy (fun t k => (block t k).scale (blockNorm c)) T Fq ii jj).val = fin e)
    (hq : (riskQuotient c block T Fq ii jj).val = fin q) :
    1 / 2 ^ 124 ≤ e ∧ ∃ t z, 3.8 * ((mLambda T Fq : ℝ) * tileSize T Fq) ≤ |t| ∧ R.round (|t| / e) = fin z := by
  obtain ⟨t, ht, hlow, h34, -⟩ := sureTemp_bounds (R := R) hT hFq
  rw [riskQuotient, val_div, ht, he] at hq
  rcases he₀.eq_or_lt with rfl | hpos
  · rcases div_zero_eq (fin t) with h | ⟨s, h⟩ <;> rw [h] at hq <;> exact ExtFloat.noConfusion hq
  rw [fin_div hpos.ne', fix_fin] at hq
  obtain ⟨z, hz⟩ := fin_abs hq
  have hlt := abs_lt_of_fin hq
  rw [abs_div, abs_of_pos hpos] at hz hlt
  refine ⟨?_, t, z, hlow, hz⟩
  rw [div_lt_iff₀ hpos] at hlt
  norm_num at hlt ⊢
  linarith

/-- **Where the energy of a tile divides its risk, its power divides its noise.** -/
theorem quotient_of_riskQuotient (hc : NoiseLevel c σ) (h : FiniteBlock block) (hT : T < nblkTime) (hFq : Fq < nblkFreq)
    (hii : ii < 2 ^ T) (hjj : jj < 2 ^ Fq) {p q : ℝ} (hp : p ≤ 1) (hpower : (tilePower block T Fq ii jj).val = fin p)
    (hq : (riskQuotient c block T Fq ii jj).val = fin q) :
    ∃ z, (tileNoise c T Fq / tilePower block T Fq ii jj).val = fin z := by
  obtain ⟨e, v, he, he₀, hle, hvD, -⟩ := h.energy_le hc hT hFq hii hjj hp hpower
  obtain ⟨hlow, t, z, ht, hz⟩ := energy_of_riskQuotient hT hFq he₀ he hq
  obtain ⟨n, hn, hn₀, -, hnle, -⟩ := tileNoise_bounds hc hT hFq
  have hp₀ : 0 ≤ p := by
    have hnonneg := h.tilePower_nonneg hii hjj
    rwa [hpower] at hnonneg
  have hL : 0 ≤ (mLambda T Fq : ℝ) * tileSize T Fq := by
    have := (exactTemp_bounds T hT Fq hFq).1
    exact_mod_cast le_trans (by norm_num) this
  have hD : 0 ≤ σ * σ * c.winSize := mul_nonneg (mul_self_nonneg σ) (Nat.cast_nonneg _)
  have hmul := noise_mul_energy_le hL hD hp₀ hnle hvD hle hlow ht
  have hepos : 0 < e := lt_of_lt_of_le (by norm_num) hlow
  have hppos : 0 < p := by
    rcases hp₀.eq_or_lt with rfl | hpos
    · have := mul_pos hn₀ hepos
      linarith
    · exact hpos
  rw [val_div, hn, hpower, fin_div hppos.ne', fix_fin]
  refine fin_of_le (div_nonneg hn₀.le hp₀) ?_ hz
  rw [div_le_div_iff₀ hppos hepos]
  exact hmul

/-- A power that is not small divides the noise. -/
theorem quotient_of_le (hc : NoiseLevel c σ) (hT : T < nblkTime) (hFq : Fq < nblkFreq)
    (hpower : fin (1 / 2 ^ 20) ≤ (tilePower block T Fq ii jj).val) :
    ∃ z, (tileNoise c T Fq / tilePower block T Fq ii jj).val = fin z := by
  obtain ⟨n, hn, hn₀, -, -, hle⟩ := tileNoise_bounds hc hT hFq
  rw [val_div, hn]
  rcases eq_inf_or_fin hpower with hP | ⟨p, hP, hp⟩
  · rw [hP]
    exact ⟨0, R.zero⟩
  · have hp₀ : 0 < p := lt_of_lt_of_le (by norm_num) hp
    obtain ⟨z, hz, -⟩ := round_near (R := R) (x := n / p) (by
      rw [abs_of_nonneg (div_nonneg hn₀.le hp₀.le), div_le_iff₀ hp₀]
      norm_num at hle hp ⊢
      linarith)
    rw [hP, fin_div hp₀.ne', fix_fin]
    exact ⟨z, hz⟩

/-- `lambda * size_blk`. -/
theorem lambda_size_bounds (hT : T < nblkTime) (hFq : Fq < nblkFreq) :
    ∃ y, ((ofRat (mLambda T Fq) : R.Float) * CFloat.ofNat (tileSize T Fq)).val = fin y ∧ 8 ≤ y := by
  obtain ⟨hl₁, hl₂⟩ := mLambda_bounds T hT Fq hFq
  obtain ⟨-, -, hs₁, hs₂⟩ := tileSize_bounds T hT Fq hFq
  have hl : (1 : ℝ) ≤ mLambda T Fq ∧ (mLambda T Fq : ℝ) ≤ 5 := ⟨by exact_mod_cast hl₁, by exact_mod_cast hl₂⟩
  have hs : (2 : ℝ) ≤ tileSize T Fq ∧ (tileSize T Fq : ℝ) ≤ 128 := ⟨by exact_mod_cast hs₁, by exact_mod_cast hs₂⟩
  have hls := mul_bounds zero_le_one zero_le_two hl hs
  have hlow : (9 : ℝ) ≤ mLambda T Fq * tileSize T Fq := by exact_mod_cast (exactTemp_bounds T hT Fq hFq).1
  have hlambda : Approx 1 (ofRat (mLambda T Fq) : R.Float) (mLambda T Fq) :=
    Approx.ofRat (le_trans (by norm_num) hl.1) (hl.2.trans (by norm_num))
  obtain ⟨y, hy, -, hle, -⟩ := (hlambda.mul (Approx.ofNat (by omega) (hs₂.trans (by norm_num))) (by decide)
    (le_trans (by norm_num) hls.1) (hls.2.trans (by norm_num))).bounds (by decide)
  refine ⟨y, hy, ?_⟩
  norm_num at hle
  linarith

/-- **The risk of a tile of small energy needs its quotient.** -/
theorem sureTile_eq_nan (hT : T < nblkTime) (hFq : Fq < nblkFreq) {e : ℝ} (he : e ≤ 1)
    (henergy : (tileEnergy (fun t k => (block t k).scale (blockNorm c)) T Fq ii jj).val = fin e)
    (hq : ∀ q, (riskQuotient c block T Fq ii jj).val ≠ fin q) :
    (sureTile (ofRat (mLambda T Fq)) (ofNat (tileSize T Fq))
      (tileEnergy (fun t k => (block t k).scale (blockNorm c)) T Fq ii jj)).val = nan := by
  obtain ⟨y, hy, hlow⟩ := lambda_size_bounds (R := R) hT hFq
  have hfalse : ¬ tileEnergy (fun t k => (block t k).scale (blockNorm c)) T Fq ii jj >
      ofRat (mLambda T Fq) * ofNat (tileSize T Fq) := by
    rw [gt_iff_lt, lt_iff, henergy, hy, fin_lt]
    linarith
  have hzero : ∀ a : R.Float, (∀ q, a.val ≠ fin q) → (a * ofRat 0).val = nan := by
    intro a ha
    rw [val_mul, val_zero]
    cases h : a.val with
    | fin q => exact absurd h (ha q)
    | inf s => rw [inf_mul_zero, fix_nan]
    | nan => rfl
  have hquot := hzero _ hq
  rw [sureTile_eq, ofBool, if_neg hfalse]
  unfold riskQuotient at hquot
  rw [val_add, val_add, hquot, add_nan, fix_nan, nan_add, fix_nan]

/-- **A tile whose power does not divide its noise has no risk.** -/
theorem sureTile_of_not_quotient (hc : NoiseLevel c σ) (h : FiniteBlock block) (hT : T < nblkTime) (hFq : Fq < nblkFreq)
    (hii : ii < 2 ^ T) (hjj : jj < 2 ^ Fq)
    (hnot : ¬ ∃ z, (tileNoise c T Fq / tilePower block T Fq ii jj).val = fin z) :
    (sureTile (ofRat (mLambda T Fq)) (ofNat (tileSize T Fq))
      (tileEnergy (fun t k => (block t k).scale (blockNorm c)) T Fq ii jj)).val = nan := by
  obtain ⟨p, hp, hp₀, hsmall⟩ : ∃ p, (tilePower block T Fq ii jj).val = fin p ∧ 0 ≤ p ∧ p < 1 / 2 ^ 20 := by
    have hlarge : ¬ fin (1 / 2 ^ 20) ≤ (tilePower block T Fq ii jj).val := fun hle => hnot (quotient_of_le hc hT hFq hle)
    rcases eq_inf_or_fin (h.tilePower_nonneg hii hjj) with hP | ⟨p, hP, hp₀⟩
    · rw [hP] at hlarge
      exact absurd rfl hlarge
    · rw [hP, fin_le, not_le] at hlarge
      exact ⟨p, hP, hp₀, hlarge⟩
  have hp₁ : p ≤ 1 := hsmall.le.trans (by norm_num)
  obtain ⟨e, v, he, -, hle, -, hv⟩ := h.energy_le hc hT hFq hii hjj hp₁ hp
  have he₁ : e ≤ 1 := by
    have := mul_le_mul hv hsmall.le hp₀ (by norm_num)
    norm_num at this hle
    linarith
  exact sureTile_eq_nan hT hFq he₁ he fun q hq => hnot (quotient_of_riskQuotient hc h hT hFq hii hjj hp₁ hp hq)

end Risk

end AudioProcess
