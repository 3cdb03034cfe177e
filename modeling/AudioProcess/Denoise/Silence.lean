import AudioProcess.Denoise.Risk
import AudioProcess.Lib.Binary32

/-!
# Block thresholding on silence

With the IEEE rules for zero divisors and every operation rounded, on finite transformed windows. The DC step and
the trailing bins replace a negative factor by zero; `blockTreshold_compute_thre` multiplies by a comparison instead,
which turns the `-inf` of a tile with next to no power into NaN.

* `binFactor_isFactor`, **`tileFactor_isFactor_iff`**: the factors;
* `segmentation_of_not_audible`, **`quotient_of_segmentation`**: the segmentation never isolates a tile without power
  in an audible macro-block, and does not divide one that is not;
* `factor_iff`, **`wienerGain_isGain_iff`**, **`numbers_iff`**: what becomes of the windows;
* `audible_of_le`, `not_audible_of_le`, **`not_audible_of_silent`**: which macro-blocks are audible;
  `moderate_of_le`: which powers are moderate;
* **`defined_iff`**: when the thresholding is defined; where the powers are moderate, exactly when every frequency
  macro-block is audible.
-/

namespace AudioProcess

open CFloat CLoop ExtFloat Rounding Rounding.Float

variable {R : Rounding}

/-! ## Factors -/

/-- A number from `0` to `1`. -/
def IsFactor (x : R.Float) : Prop := ∃ a : ℝ, x.val = fin a ∧ 0 ≤ a ∧ a ≤ 1

/-- A number from `0` to `1`, `1` excluded. -/
def IsGain (x : R.Float) : Prop := ∃ a : ℝ, x.val = fin a ∧ 0 ≤ a ∧ a < 1

/-- A positive number over a power. -/
theorem div_power_cases {N P : R.Float} {n : ℝ} (hN : N.val = fin n) (hn : 0 < n) (hP : fin 0 ≤ P.val) :
    (N / P).val = inf false ∨ ∃ y, (N / P).val = fin y ∧ 0 ≤ y := by
  rw [val_div, hN]
  rcases eq_inf_or_fin hP with h | ⟨p, h, hp⟩
  · rw [h]
    exact Or.inr ⟨0, R.zero, le_rfl⟩
  · rcases hp.eq_or_lt with rfl | hpos
    · rw [h, div_zero hn]
      exact Or.inl rfl
    · rw [h, fin_div hpos.ne', fix_fin]
      refine eq_inf_or_fin ?_
      rw [← R.zero]
      exact R.mono 0 _ (div_nonneg hn.le hp)

/-- One minus a quotient. -/
theorem one_sub_val {q : R.Float} {y : ℝ} (hq : q.val = fin y) (hy : 0 ≤ y) :
    ∃ a, (ofRat 1 - q).val = fin a ∧ a ≤ 1 := by
  rw [val_sub, val_one, hq, fin_sub, fix_fin]
  have hlow : fin (-y) ≤ R.round (1 - y) := by
    have hneg : R.round (-y) = fin (-y) := by
      rw [R.neg, round_eq hq]
      rfl
    rw [← hneg]
    exact R.mono _ _ (by linarith)
  have hhigh : R.round (1 - y) ≤ fin 1 := by
    rw [← R.one]
    exact R.mono _ _ (by linarith)
  obtain ⟨a, ha, -, hle⟩ := exists_fin hlow hhigh
  exact ⟨a, ha, hle⟩

theorem one_sub_inf {q : R.Float} (hq : q.val = inf false) : (ofRat 1 - q).val = inf true := by
  rw [val_sub, val_one, hq]
  rfl

section Factors

variable {c : Config R.Float} {σ : ℝ}

/-- `Lambda_pi * L_pi`. -/
theorem binNoise_approx : Approx 3 ((ofRat 2.5 : R.Float) * ofRat 8) (((2.5 : ℚ) : ℝ) * ((8 : ℚ) : ℝ)) :=
  (Approx.ofRat (by norm_num) (by norm_num)).mul (Approx.ofRat (by norm_num) (by norm_num)) (by decide)
    (by norm_num) (by norm_num)

theorem binFactor_isFactor (hc : NoiseLevel c σ) {coef : ℕ → ℕ → Cpx R.Float} {f : ℕ}
    (hP : fin 0 ≤ (powerSTFT coef 0 (maxNblkTime - 1) f f).val) : IsFactor (binFactor c coef f) := by
  obtain ⟨n, hn, hn₀, -⟩ := noise_bounds hc binNoise_approx (by decide) (by norm_num)
  simp only [binFactor]
  rcases div_power_cases hn hn₀ hP with hq | ⟨y, hq, hy⟩
  · have hlt : ofRat 1 - ofRat 2.5 * ofRat 8 * (c.sigmaHanningNoise * c.sigmaHanningNoise) * ofNat c.winSize /
        powerSTFT coef 0 (maxNblkTime - 1) f f < ofRat 0 := by
      rw [lt_iff, one_sub_inf hq, val_zero]
      exact rfl
    rw [if_pos hlt]
    exact ⟨0, val_zero, le_rfl, zero_le_one⟩
  · obtain ⟨a, ha, hle⟩ := one_sub_val hq hy
    split_ifs with hlt
    · exact ⟨0, val_zero, le_rfl, zero_le_one⟩
    · refine ⟨a, ha, ?_, hle⟩
      rw [lt_iff, ha, val_zero, fin_lt] at hlt
      exact not_lt.mp hlt

variable {block : ℕ → ℕ → Cpx R.Float} {T Fq ii jj : ℕ}

theorem tileFactor_eq (c : Config R.Float) (block : ℕ → ℕ → Cpx R.Float) (T Fq ii jj : ℕ) :
    tileFactor c block T Fq ii jj = (ofRat 1 - tileNoise c T Fq / tilePower block T Fq ii jj) *
      ofBool (ofRat 1 - tileNoise c T Fq / tilePower block T Fq ii jj > ofRat 0) := by
  unfold tilePower
  rfl

/-- **The factor of a tile is one exactly when its power divides its noise.** -/
theorem tileFactor_isFactor_iff (hc : NoiseLevel c σ) (h : FiniteBlock block) (hT : T < nblkTime) (hFq : Fq < nblkFreq)
    (hii : ii < 2 ^ T) (hjj : jj < 2 ^ Fq) : IsFactor (tileFactor c block T Fq ii jj) ↔
      ∃ z, (tileNoise c T Fq / tilePower block T Fq ii jj).val = fin z := by
  obtain ⟨n, hn, hn₀, -⟩ := tileNoise_bounds hc hT hFq
  rw [tileFactor_eq]
  rcases div_power_cases hn hn₀ (h.tilePower_nonneg hii hjj) with hq | ⟨y, hq, hy⟩
  · have hle : ¬ ofRat 1 - tileNoise c T Fq / tilePower block T Fq ii jj > ofRat 0 := by
      rw [gt_iff_lt, lt_iff, one_sub_inf hq, val_zero]
      exact Bool.noConfusion
    refine iff_of_false ?_ ?_
    · rintro ⟨a, ha, -⟩
      rw [ofBool, if_neg hle, val_mul, one_sub_inf hq, val_zero, inf_mul_zero] at ha
      exact ExtFloat.noConfusion ha
    · rintro ⟨z, hz⟩
      rw [hq] at hz
      exact ExtFloat.noConfusion hz
  · refine iff_of_true ?_ ⟨y, hq⟩
    obtain ⟨a, ha, hle⟩ := one_sub_val hq hy
    by_cases hpos : ofRat 1 - tileNoise c T Fq / tilePower block T Fq ii jj > ofRat 0
    · have ha₀ : 0 < a := by rwa [gt_iff_lt, lt_iff, ha, val_zero, fin_lt] at hpos
      refine ⟨a, ?_, ha₀.le, hle⟩
      rw [ofBool, if_pos hpos, val_mul, ha, val_one, fin_mul, mul_one, fix_fin, round_eq ha]
    · refine ⟨0, ?_, le_rfl, zero_le_one⟩
      rw [ofBool, if_neg hpos, val_mul, ha, val_zero, fin_mul, mul_zero, fix_fin, R.zero]

end Factors

/-! ## The segmentation -/

/-- The power of macro-block `i`. -/
@[irreducible] noncomputable def blockPower (coef : ℕ → ℕ → Cpx R.Float) (i : ℕ) : R.Float :=
  powerSTFT (blockOf coef i) 0 (maxNblkTime - 1) 0 (maxNblkFreq - 1)

theorem blockPower_eq (coef : ℕ → ℕ → Cpx R.Float) (i : ℕ) :
    blockPower coef i = tilePower (blockOf coef i) 0 0 0 0 := by
  unfold blockPower tilePower
  rfl

/-- Macro-block `i` has enough power: its noise over its power is a number. -/
def Audible (c : Config R.Float) (coef : ℕ → ℕ → Cpx R.Float) (i : ℕ) : Prop :=
  ∃ z, (tileNoise c 0 0 / blockPower coef i).val = fin z

section Segmentation

variable {c : Config R.Float} {σ : ℝ} {coef : ℕ → ℕ → Cpx R.Float} {i T Fq ii jj : ℕ}

/-- A tile without risk spoils the risk of its segmentation. -/
theorem sureTable_eq_nan (hc : NoiseLevel c σ) (h : FiniteBlock (blockOf coef i)) (hT : T < nblkTime)
    (hFq : Fq < nblkFreq) (hii : ii < 2 ^ T) (hjj : jj < 2 ^ Fq)
    (hnot : ¬ ∃ z, (tileNoise c T Fq / tilePower (blockOf coef i) T Fq ii jj).val = fin z) :
    (sureTable c coef i T Fq).val = nan := by
  have htile := sureTile_of_not_quotient hc h hT hFq hii hjj hnot
  unfold tileEnergy at htile
  refine forLoop_hit (fun s : R.Float => s.val = nan) (Nat.zero_le ii) hii (fun s => ?_) fun i s hs => ?_
  · refine forLoop_hit (fun s : R.Float => s.val = nan) (Nat.zero_le jj) hjj (fun s => ?_) fun j s hs => ?_
    · rw [val_add]
      exact (congrArg (fun x => R.fix (s.val + x)) htile).trans (by rw [add_nan, fix_nan])
    · rw [val_add, hs, nan_add, fix_nan]
  · refine forLoop_inv (fun s : R.Float => s.val = nan) hs fun j s _ _ hs => ?_
    rw [val_add, hs, nan_add, fix_nan]

theorem not_lt_of_nan {a b : R.Float} (h : a.val = nan ∨ b.val = nan) : ¬ a < b := by
  rw [lt_iff]
  rcases h with h | h <;> rw [h]
  · exact not_nan_lt _
  · exact not_lt_nan _

/-- **A block without enough power is not divided**: nothing is below NaN. -/
theorem segmentation_of_not_audible (hc : NoiseLevel c σ) (h : FiniteBlock (blockOf coef i))
    (hnot : ¬ Audible c coef i) : segmentation c coef i = (0, 0) := by
  rw [Audible, blockPower_eq] at hnot
  have hnan : (sureTable c coef i 0 0).val = nan :=
    sureTable_eq_nan hc h (by decide) (by decide) (Nat.two_pow_pos 0) (Nat.two_pow_pos 0) hnot
  have hmin : minSure (sureTable c coef i) = (sureTable c coef i 0 0, 0, 0) := by
    refine forLoop_inv (fun s => s = (sureTable c coef i 0 0, 0, 0)) rfl fun T s _ _ hs => ?_
    refine forLoop_inv (fun s => s = (sureTable c coef i 0 0, 0, 0)) hs fun Fq s _ _ hs => ?_
    rw [hs]
    exact if_neg (not_lt_of_nan (Or.inr hnan))
  rw [segmentation, hmin]

/-- **In an audible block, the chosen segmentation has no tile without power.** -/
theorem quotient_of_segmentation (hc : NoiseLevel c σ) (h : FiniteBlock (blockOf coef i)) (haudible : Audible c coef i)
    (hii : ii < 2 ^ (segmentation c coef i).1) (hjj : jj < 2 ^ (segmentation c coef i).2) :
    ∃ z, (tileNoise c (segmentation c coef i).1 (segmentation c coef i).2 /
      tilePower (blockOf coef i) (segmentation c coef i).1 (segmentation c coef i).2 ii jj).val = fin z := by
  obtain ⟨hT, hFq, hzero | ⟨m, hm⟩⟩ := segmentation_chosen c coef i
  · -- the whole block is the only tile
    rw [hzero] at hii hjj ⊢
    obtain rfl : ii = 0 := Nat.lt_one_iff.mp hii
    obtain rfl : jj = 0 := Nat.lt_one_iff.mp hjj
    rwa [Audible, blockPower_eq] at haudible
  · -- a comparison chose the segmentation, so its risk is a number
    by_contra hnot
    exact not_lt_of_nan (Or.inl (sureTable_eq_nan hc h hT hFq hii hjj hnot)) hm

/-- **The factors of a macro-block are factors exactly when it is audible.** -/
theorem blockFactor_iff (hc : NoiseLevel c σ) (h : FiniteBlock (blockOf coef i)) :
    (∀ t < maxNblkTime, ∀ k < maxNblkFreq, IsFactor (blockFactor c coef i t k)) ↔ Audible c coef i := by
  obtain ⟨hT, hFq, -⟩ := segmentation_chosen c coef i
  have htile : ∀ t < maxNblkTime, ∀ k < maxNblkFreq, IsFactor (blockFactor c coef i t k) ↔ _ := fun t ht k hk =>
    tileFactor_isFactor_iff hc h hT hFq (tile_div_lt (show maxNblkTime = 2 ^ 3 from rfl) (Nat.le_of_lt hT) ht)
      (tile_div_lt (show maxNblkFreq = 2 ^ 4 from rfl) (Nat.le_of_lt_succ hFq) hk)
  constructor
  · intro hall
    by_contra hnot
    obtain ⟨z, hz⟩ := (htile 0 (by decide) 0 (by decide)).mp (hall 0 (by decide) 0 (by decide))
    rw [segmentation_of_not_audible hc h hnot] at hz
    rw [Audible, blockPower_eq] at hnot
    exact hnot ⟨z, hz⟩
  · intro haudible t ht k hk
    exact (htile t ht k hk).mpr (quotient_of_segmentation hc h haudible
      (tile_div_lt (show maxNblkTime = 2 ^ 3 from rfl) (Nat.le_of_lt hT) ht)
      (tile_div_lt (show maxNblkFreq = 2 ^ 4 from rfl) (Nat.le_of_lt_succ hFq) hk))

end Segmentation

/-! ## The whole macro-block -/

/-- The eight transformed windows are finite. -/
def FiniteWindows (c : Config R.Float) (coef : ℕ → ℕ → Cpx R.Float) : Prop :=
  ∀ t < maxNblkTime, ∀ f ≤ c.winSize / 2, (coef t f).IsFinite

/-- The powers of the coefficients that the Wiener filter scales are numbers. -/
def FinitePowers (c : Config R.Float) (coef : ℕ → ℕ → Cpx R.Float) : Prop :=
  ∀ t < maxNblkTime, ∀ f < (c.winSize + 1) / 2, ∃ w, (coef t f).power.val = fin w

/-- The noise that the Wiener filter adds to a power. -/
noncomputable def wienerNoise (c : Config R.Float) : R.Float :=
  CFloat.ofNat c.winSize * (c.sigmaHanningNoise * c.sigmaHanningNoise)

/-- It is not lost next to the power `p`. -/
def NoiseCounts (c : Config R.Float) (p : R.Float) : Prop := p < p + wienerNoise c

/-- It is not lost up to the powers of the coefficients. -/
def Moderate (c : Config R.Float) (coef : ℕ → ℕ → Cpx R.Float) : Prop :=
  ∀ t < maxNblkTime, ∀ f < (c.winSize + 1) / 2, ∀ p : R.Float, fin 0 ≤ p.val → p.val ≤ (coef t f).power.val →
    NoiseCounts c p

/-- The thresholding of `h` leaves numbers: its attenuation factors and its Wiener gains in `[0, 1]`, and its
coefficients. -/
structure Numbers (c : Config R.Float) (h : Handle R.Float) : Prop where
  factor : ∀ t < maxNblkTime, ∀ f ≤ c.winSize / 2, IsFactor (factor c h.stftCoef t f)
  gain : ∀ t < maxNblkTime, ∀ f < (c.winSize + 1) / 2,
    IsFactor (wienerGain c ((blockThresholdCore c h).stftThre t f))
  stftCoef : FiniteWindows c (blockThresholdCore c h).stftCoef

/-- It is defined: no gain is `1`, either. -/
structure Defined (c : Config R.Float) (h : Handle R.Float) : Prop extends Numbers c h where
  gain_lt : ∀ t < maxNblkTime, ∀ f < (c.winSize + 1) / 2,
    IsGain (wienerGain c ((blockThresholdCore c h).stftThre t f))

section Windows

variable {c : Config R.Float} {σ : ℝ} {coef : ℕ → ℕ → Cpx R.Float}

theorem FiniteWindows.block (h : FiniteWindows c coef) {i : ℕ} (hi : i < c.halfNbMacroblkFrq) :
    FiniteBlock (blockOf coef i) := fun t ht k hk => h t ht _ (by have := lt_of_macroblk hi hk; omega)

theorem FiniteWindows.bin (h : FiniteWindows c coef) {f : ℕ} (hf : f ≤ c.winSize / 2) :
    ∀ x ≤ maxNblkTime - 1, ∀ y ≤ f, (coef x y).IsFinite :=
  fun x hx y hy => h x (Nat.lt_of_le_pred (by decide) hx) y (hy.trans hf)

/-- **The factors of the windows are factors exactly when every frequency macro-block is audible.** -/
theorem factor_iff (hc : NoiseLevel c σ) (h : FiniteWindows c coef) :
    (∀ t < maxNblkTime, ∀ f ≤ c.winSize / 2, IsFactor (factor c coef t f)) ↔
      ∀ i < c.halfNbMacroblkFrq, Audible c coef i := by
  constructor
  · intro hall i hi
    refine (blockFactor_iff hc (h.block hi)).mp fun t ht k hk => ?_
    have hf := lt_of_macroblk hi hk
    have hin : 1 ≤ 1 + i * maxNblkFreq + k ∧ 1 + i * maxNblkFreq + k < c.idxFreqLast := by
      have := Nat.mul_le_mul_right maxNblkFreq hi
      rw [Nat.succ_mul] at this
      unfold Config.idxFreqLast
      omega
    have hfactor := hall t ht (1 + i * maxNblkFreq + k) (by omega)
    rwa [factor, if_pos hin, show 1 + i * maxNblkFreq + k - 1 = maxNblkFreq * i + k by rw [Nat.mul_comm]; omega,
      Nat.mul_add_div (by decide), Nat.mul_add_mod, Nat.div_eq_of_lt hk, Nat.mod_eq_of_lt hk, Nat.add_zero] at hfactor
  · intro hall t ht f hf
    unfold factor
    split_ifs with hin
    · have hi := macroblk_lt hin
      exact (blockFactor_iff hc (h.block hi)).mpr (hall _ hi) t ht _ (Nat.mod_lt _ (by decide))
    · exact binFactor_isFactor hc (powerSTFT_le (h.bin hf)).1

/-! ## The Wiener filter -/

/-- A factor makes no coefficient larger. -/
theorem scale_le {x a : R.Float} {r : ℝ} (hx : x.val = fin r) (ha : IsFactor a) :
    ∃ y, (x * a).val = fin y ∧ |y| ≤ |r| := by
  obtain ⟨u, hu, hu₀, hu₁⟩ := ha
  rw [val_mul, hx, hu, fin_mul, fix_fin]
  have hr := round_eq hx
  rcases le_total 0 r with h | h
  · obtain ⟨y, hy, hy₀, hyr⟩ := exists_fin (R.zero ▸ R.mono 0 (r * u) (mul_nonneg h hu₀))
      (hr ▸ R.mono (r * u) r (mul_le_of_le_one_right h hu₁))
    refine ⟨y, hy, ?_⟩
    rwa [abs_of_nonneg hy₀, abs_of_nonneg h]
  · obtain ⟨y, hy, hry, hy₀⟩ := exists_fin (hr ▸ R.mono r (r * u) (by nlinarith))
      (R.zero ▸ R.mono (r * u) 0 (mul_nonpos_of_nonpos_of_nonneg h hu₀))
    refine ⟨y, hy, ?_⟩
    rw [abs_of_nonpos hy₀, abs_of_nonpos h]
    linarith

theorem Cpx.IsFinite.scale {z : Cpx R.Float} (hz : z.IsFinite) {a : R.Float} (ha : IsFactor a) :
    (z.scale a).IsFinite := by
  obtain ⟨x, y, hx, hy⟩ := hz
  obtain ⟨x', hx', -⟩ := scale_le hx ha
  obtain ⟨y', hy', -⟩ := scale_le hy ha
  exact ⟨x', y', hx', hy'⟩

theorem sq_le_sq_val {x y : R.Float} {r r' : ℝ} (hx : x.val = fin r) (hy : y.val = fin r') (h : |r| ≤ |r'|) :
    (x * x).val ≤ (y * y).val := by
  rw [val_mul, val_mul, hx, hy, fin_mul, fin_mul]
  exact R.mono _ _ (abs_le_iff_mul_self_le.mp h)

theorem power_scale_le {z : Cpx R.Float} (hz : z.IsFinite) {a : R.Float} (ha : IsFactor a) :
    (z.scale a).power.val ≤ z.power.val := by
  obtain ⟨x, y, hx, hy⟩ := hz
  obtain ⟨x', hx', hxx'⟩ := scale_le hx ha
  obtain ⟨y', hy', hyy'⟩ := scale_le hy ha
  exact R.fix_mono (ExtFloat.add_le_add (sq_nonneg hx') (sq_nonneg hy') (sq_le_sq_val hx' hx hxx')
    (sq_le_sq_val hy' hy hyy'))

theorem wienerNoise_bounds (hc : NoiseLevel c σ) :
    ∃ b, (wienerNoise c).val = fin b ∧ 0 < b ∧ 0.00082 * c.winSize ≤ b ∧ b ≤ 0.00084 * c.winSize := by
  have hsq := hc.sq_bounds
  have hwin := hc.win_bounds
  have hprod := mul_bounds (by norm_num) (by norm_num) hwin hsq
  norm_num at hprod
  obtain ⟨b, hb, -, h₁, h₂⟩ := (hc.win_approx.mul hc.sq_approx (by decide) (le_trans (by norm_num) hprod.1)
    (hprod.2.trans (by norm_num))).bounds (by decide)
  have hlow := mul_le_mul_of_nonneg_left hsq.1 (by linarith : (0 : ℝ) ≤ c.winSize)
  have hhigh := mul_le_mul_of_nonneg_left hsq.2 (by linarith : (0 : ℝ) ≤ c.winSize)
  refine ⟨b, hb, ?_, ?_, ?_⟩ <;> norm_num at * <;> linarith

theorem wienerGain_eq (c : Config R.Float) (z : Cpx R.Float) :
    wienerGain c z = z.power / (z.power + wienerNoise c) := rfl

/-- The sum that the Wiener filter divides a power by. -/
theorem power_add_noise (hc : NoiseLevel c σ) {z : Cpx R.Float} (hz : z.IsFinite) {w : ℝ}
    (hw : z.power.val = fin w) : 0 ≤ w ∧ ((z.power + wienerNoise c).val = inf false ∨
      ∃ s, (z.power + wienerNoise c).val = fin s ∧ 0 < s ∧ w ≤ s) := by
  obtain ⟨b, hb, hb₀, -⟩ := wienerNoise_bounds hc
  have hw₀ : 0 ≤ w := by
    have hnonneg := hz.power_nonneg
    rwa [hw] at hnonneg
  obtain ⟨hle, hbs⟩ := le_val_add hz.power_nonneg (b := wienerNoise c) (by rw [hb]; exact hb₀.le)
  rw [hb] at hbs
  refine ⟨hw₀, (eq_inf_or_fin hbs).imp_right fun ⟨s, hsum, hs⟩ => ⟨s, hsum, hb₀.trans_le hs, ?_⟩⟩
  rwa [hw, hsum] at hle

/-- A gain is a factor while the power is a number. -/
theorem wienerGain_isFactor (hc : NoiseLevel c σ) {z : Cpx R.Float} (hz : z.IsFinite) {w : ℝ}
    (hw : z.power.val = fin w) : IsFactor (wienerGain c z) := by
  obtain ⟨hw₀, hsum⟩ := power_add_noise hc hz hw
  rw [wienerGain_eq]
  unfold IsFactor
  rw [val_div, hw]
  rcases hsum with hsum | ⟨s, hsum, hs₀, hle⟩
  · rw [hsum]
    exact ⟨0, R.zero, le_rfl, zero_le_one⟩
  · rw [hsum, fin_div hs₀.ne', fix_fin]
    exact exists_fin (R.zero ▸ R.mono 0 _ (div_nonneg hw₀ hs₀.le)) (R.one ▸ R.mono _ 1 ((div_le_one hs₀).mpr hle))

/-- The quotient of a number by a larger one is below `1`, also when it is rounded. -/
theorem div_isGain {a b : R.Float} {x y : ℝ} (ha : a.val = fin x) (hb : b.val = fin y) (hx : 0 ≤ x) (h : x < y) :
    IsGain (a / b) := by
  have hy : 0 < y := hx.trans_lt h
  have hquot : 0 ≤ x / y := div_nonneg hx hy.le
  have hgap : x / y ≤ 1 - 1 / 2 ^ 24 := (div_le_iff₀ hy).mpr (R.gap x y (round_eq ha) (round_eq hb) hx h)
  obtain ⟨g, hg, hnear⟩ := round_near (R := R) (x := x / y) (by
    rw [abs_of_nonneg hquot]
    exact hgap.trans (by norm_num))
  have hg₀ : fin 0 ≤ fin g := by
    rw [← hg, ← R.zero]
    exact R.mono 0 _ hquot
  rw [abs_of_nonneg hquot, abs_le] at hnear
  refine ⟨g, by rw [val_div, ha, hb, fin_div hy.ne', fix_fin, hg], hg₀, ?_⟩
  norm_num at hnear hgap ⊢
  linarith

/-- **A gain is below `1` exactly when the noise is not lost next to the power.** -/
theorem wienerGain_isGain_iff (hc : NoiseLevel c σ) {z : Cpx R.Float} (hz : z.IsFinite) {w : ℝ}
    (hw : z.power.val = fin w) : IsGain (wienerGain c z) ↔ NoiseCounts c z.power := by
  obtain ⟨hw₀, hsum⟩ := power_add_noise hc hz hw
  rw [wienerGain_eq, NoiseCounts, lt_iff, hw]
  rcases hsum with hsum | ⟨s, hsum, hs₀, hle⟩
  · rw [hsum]
    refine iff_of_true ⟨0, ?_, le_rfl, zero_lt_one⟩ rfl
    rw [val_div, hw, hsum]
    exact R.zero
  · rw [hsum, fin_lt]
    refine ⟨fun hgain => hle.lt_of_ne ?_, fun hlt => div_isGain hw hsum hw₀ hlt⟩
    rintro rfl
    obtain ⟨g, hg, -, hg₁⟩ := hgain
    rw [val_div, hw, hsum, fin_div hs₀.ne', div_self hs₀.ne', fix_fin, R.one, ExtFloat.fin.injEq] at hg
    exact hg₁.ne' hg

/-- Factors and gains keep the coefficients finite. -/
theorem finite_core (h : Handle R.Float) (hfin : FiniteWindows c h.stftCoef)
    (hgain : ∀ t < maxNblkTime, ∀ f < (c.winSize + 1) / 2,
      IsFactor (wienerGain c ((h.stftCoef t f).scale (AudioProcess.factor c h.stftCoef t f)))) :
    FiniteWindows c (blockThresholdCore c h).stftCoef := by
  intro t ht f hf
  rw [blockThresholdCore_stftCoef]
  unfold coreCoef
  split_ifs with hin
  · have hz := (hfin t ht f hf).scale (hgain t ht f hin.2)
    unfold wienerBin
    simp only
    split_ifs
    · refine hz.scale (exists_fin ?_ ?_)
      · rw [← R.zero]
        exact R.mono _ _ (by norm_num)
      · rw [← R.one]
        exact R.mono _ _ (by norm_num)
    · exact hz
  · exact hfin t ht f hf

/-! ## Powers that overflow -/

theorem inf_of_inf_le {a : ExtFloat} (h : inf false ≤ a) : a = inf false := by
  cases a with
  | fin x => exact absurd h Bool.false_ne_true
  | inf s =>
      obtain rfl : s = false := h.resolve_left Bool.false_ne_true
      rfl
  | nan => exact absurd h (not_le_nan _)

/-- One minus a number over infinity. -/
theorem one_sub_div_inf {N P : R.Float} {n : ℝ} (hN : N.val = fin n) (hP : P.val = inf false) :
    (ofRat 1 - N / P).val = fin 1 := by
  have hquot : (N / P).val = fin 0 := by
    rw [val_div, hN, hP]
    exact R.zero
  rw [val_sub, val_one, hquot, fin_sub, sub_zero, fix_fin, R.one]

theorem tilePower_of_inf {block : ℕ → ℕ → Cpx R.Float} (h : FiniteBlock block) {T Fq : ℕ} (hT : T < nblkTime)
    (hFq : Fq < nblkFreq) {t k : ℕ} (ht : t < maxNblkTime) (hk : k < maxNblkFreq)
    (hinf : (block t k).power.val = inf false) :
    (tilePower block T Fq (t / (maxNblkTime / 2 ^ T)) (k / (maxNblkFreq / 2 ^ Fq))).val = inf false := by
  obtain ⟨⟨hTT, -⟩, ⟨hFF, -⟩, -⟩ := tileSize_bounds T hT Fq hFq
  have hii := tile_div_lt (show maxNblkTime = 2 ^ 3 from rfl) (Nat.le_of_lt hT) ht
  have hjj := tile_div_lt (show maxNblkFreq = 2 ^ 4 from rfl) (Nat.le_of_lt_succ hFq) hk
  unfold tilePower
  refine inf_of_inf_le (hinf ▸ (powerSTFT_le fun x hx y hy =>
    h x (tile_lt (by decide) hii hx) y (tile_lt (by decide) hjj hy)).2 t k (Nat.mul_div_le _ _) ?_
      (Nat.mul_div_le _ _) ?_)
  · exact Nat.le_pred_of_lt (Nat.lt_mul_div_succ t hTT)
  · exact Nat.le_pred_of_lt (Nat.lt_mul_div_succ k hFF)

/-- The factor of a coefficient of infinite power. -/
theorem factor_of_inf (hc : NoiseLevel c σ) (h : FiniteWindows c coef) {t f : ℕ} (ht : t < maxNblkTime)
    (hf : f ≤ c.winSize / 2) (hinf : (coef t f).power.val = inf false) : (factor c coef t f).val = fin 1 := by
  unfold factor
  split_ifs with hin
  · have hk : (f - 1) % maxNblkFreq < maxNblkFreq := Nat.mod_lt _ (by decide)
    have hcell : blockOf coef ((f - 1) / maxNblkFreq) t ((f - 1) % maxNblkFreq) = coef t f := by
      have := Nat.div_add_mod' (f - 1) maxNblkFreq
      rw [blockOf, show 1 + (f - 1) / maxNblkFreq * maxNblkFreq + (f - 1) % maxNblkFreq = f by omega]
    rw [← hcell] at hinf
    obtain ⟨hT, hFq, -⟩ := segmentation_chosen c coef ((f - 1) / maxNblkFreq)
    obtain ⟨n, hn, -⟩ := tileNoise_bounds hc hT hFq
    have hone := one_sub_div_inf hn (tilePower_of_inf (h.block (macroblk_lt hin)) hT hFq ht hk hinf)
    simp only [blockFactor]
    rw [tileFactor_eq, ofBool, if_pos, val_mul, hone, val_one, fin_mul, mul_one, fix_fin, R.one]
    rw [gt_iff_lt, lt_iff, hone, val_zero, fin_lt]
    exact zero_lt_one
  · have hpower := inf_of_inf_le (hinf ▸ (powerSTFT_le (h.bin hf)).2 t f (Nat.zero_le t) (Nat.le_pred_of_lt ht) le_rfl
      le_rfl)
    obtain ⟨n, hn, -⟩ := noise_bounds hc binNoise_approx (by decide) (by norm_num)
    have hone := one_sub_div_inf hn hpower
    simp only [binFactor]
    rw [if_neg, hone]
    rw [lt_iff, hone, val_zero, fin_lt]
    norm_num

/-- **A coefficient of infinite power has no gain.** -/
theorem not_isFactor_of_inf (hc : NoiseLevel c σ) (h : FiniteWindows c coef) {t f : ℕ} (ht : t < maxNblkTime)
    (hf : f ≤ c.winSize / 2) (hinf : (coef t f).power.val = inf false) :
    ¬ IsFactor (wienerGain c ((coef t f).scale (factor c coef t f))) := by
  have hone := factor_of_inf hc h ht hf hinf
  have hsame : ∀ x : R.Float, ∀ r, x.val = fin r → (x * factor c coef t f).val = x.val := by
    intro x r hx
    rw [val_mul, hx, hone, fin_mul, mul_one, fix_fin, round_eq hx]
  obtain ⟨a, b, ha, hb⟩ := h t ht f hf
  have hpower : ((coef t f).scale (factor c coef t f)).power.val = inf false := by
    rw [← hinf]
    show R.fix (R.fix ((_ * _ : R.Float).val * (_ * _ : R.Float).val) +
      R.fix ((_ * _ : R.Float).val * (_ * _ : R.Float).val)) = _
    rw [hsame _ a ha, hsame _ b hb]
    rfl
  obtain ⟨n, hn, -⟩ := wienerNoise_bounds hc
  rintro ⟨g, hg, -⟩
  rw [wienerGain_eq, val_div, val_add, hpower, hn] at hg
  exact ExtFloat.noConfusion hg

/-- **The thresholding leaves numbers exactly when every frequency macro-block is audible and no power overflows.** -/
theorem numbers_iff (hc : NoiseLevel c σ) (h : Handle R.Float) (hfin : FiniteWindows c h.stftCoef) :
    Numbers c h ↔ (∀ i < c.halfNbMacroblkFrq, Audible c h.stftCoef i) ∧ FinitePowers c h.stftCoef := by
  constructor
  · intro hn
    refine ⟨(factor_iff hc hfin).mp hn.factor, fun t ht f hf => ?_⟩
    have hgain := hn.gain t ht f hf
    rw [blockThresholdCore_stftThre c h ht (by omega)] at hgain
    rcases eq_inf_or_fin (hfin t ht f (by omega)).power_nonneg with hpower | ⟨w, hw, -⟩
    · exact absurd hgain (not_isFactor_of_inf hc hfin ht (by omega) hpower)
    · exact ⟨w, hw⟩
  · rintro ⟨haudible, hpower⟩
    have hfactor := (factor_iff hc hfin).mpr haudible
    have hgain : ∀ t < maxNblkTime, ∀ f < (c.winSize + 1) / 2,
        IsFactor (wienerGain c ((h.stftCoef t f).scale (AudioProcess.factor c h.stftCoef t f))) := by
      intro t ht f hf
      have hz := hfin t ht f (by omega)
      have ha := hfactor t ht f (by omega)
      obtain ⟨w, hw⟩ := hpower t ht f hf
      obtain ⟨w', hw', -⟩ := exists_fin (hz.scale ha).power_nonneg (hw ▸ power_scale_le hz ha)
      exact wienerGain_isFactor hc (hz.scale ha) hw'
    refine ⟨hfactor, fun t ht f hf => ?_, finite_core h hfin hgain⟩
    rw [blockThresholdCore_stftThre c h ht (by omega)]
    exact hgain t ht f hf

theorem Moderate.finitePowers (h : Moderate c coef) (hfin : FiniteWindows c coef) : FinitePowers c coef := by
  intro t ht f hf
  have hpower := (hfin t ht f (by omega)).power_nonneg
  rcases eq_inf_or_fin hpower with hinf | ⟨w, hw, -⟩
  · have hcounts := h t ht f hf _ hpower (le_self fun hnan => not_le_nan _ (hnan ▸ hpower))
    rw [NoiseCounts, lt_iff, hinf] at hcounts
    exact absurd hcounts (not_inf_lt _)
  · exact ⟨w, hw⟩

/-- Powers that are moderate. -/
theorem moderate_of_le (hc : NoiseLevel c σ) (h : ∀ t < maxNblkTime, ∀ f < (c.winSize + 1) / 2,
    (coef t f).power.val ≤ fin (13000 * c.winSize)) : Moderate c coef := by
  intro t ht f hf p hp₀ hp
  obtain ⟨w, hw, hw₀, hle⟩ := exists_fin hp₀ (ExtFloat.le_trans hp (h t ht f hf))
  obtain ⟨b, hb, -, hb₁, hb₂⟩ := wienerNoise_bounds hc
  have hwin := hc.win_bounds
  have hwb : 0 ≤ w + b := by linarith
  have hlarge : w + b ≤ 2 ^ 127 := by
    calc w + b ≤ 13001 * c.winSize := by linarith
      _ ≤ 13001 * 2 ^ 31 := mul_le_mul_of_nonneg_left hwin.2 (by norm_num)
      _ ≤ 2 ^ 127 := by norm_num
  obtain ⟨s, hs, hnear⟩ := round_near (R := R) (x := w + b) ((abs_of_nonneg hwb).trans_le hlarge)
  rw [abs_of_nonneg hwb, abs_le] at hnear
  rw [NoiseCounts, lt_iff, val_add, hw, hb, fin_add, fix_fin, hs, fin_lt]
  norm_num at hnear ⊢
  linarith

/-- The gains of numbers are below `1` exactly when the noise is not lost next to the power of an attenuated
coefficient. -/
theorem Numbers.defined (hc : NoiseLevel c σ) {h : Handle R.Float} (hfin : FiniteWindows c h.stftCoef)
    (hn : Numbers c h) : Defined c h ↔ ∀ t < maxNblkTime, ∀ f < (c.winSize + 1) / 2,
      NoiseCounts c ((blockThresholdCore c h).stftThre t f).power := by
  have hpower := ((numbers_iff hc h hfin).mp hn).2
  have hcell : ∀ t < maxNblkTime, ∀ f < (c.winSize + 1) / 2,
      (IsGain (wienerGain c ((blockThresholdCore c h).stftThre t f)) ↔
        NoiseCounts c ((blockThresholdCore c h).stftThre t f).power) := by
    intro t ht f hf
    have hz := hfin t ht f (by omega)
    have ha := hn.factor t ht f (by omega)
    obtain ⟨w, hw⟩ := hpower t ht f hf
    obtain ⟨w', hw', -⟩ := exists_fin (hz.scale ha).power_nonneg (hw ▸ power_scale_le hz ha)
    rw [blockThresholdCore_stftThre c h ht (by omega)]
    exact wienerGain_isGain_iff hc (hz.scale ha) hw'
  exact ⟨fun hd t ht f hf => (hcell t ht f hf).mp (hd.gain_lt t ht f hf),
    fun hcounts => ⟨hn, fun t ht f hf => (hcell t ht f hf).mpr (hcounts t ht f hf)⟩⟩

end Windows

/-! ## Audible macro-blocks -/

section Audible

variable {c : Config R.Float} {σ : ℝ} {coef : ℕ → ℕ → Cpx R.Float} {i : ℕ}

/-- A power that a macro-block is audible with, and not with half of it. -/
noncomputable def leastPower (c : Config R.Float) : ℝ := c.winSize / (2 ^ 130 : ℕ)

theorem NoiseLevel.leastPower_pos (hc : NoiseLevel c σ) : 0 < leastPower c :=
  div_pos (lt_of_lt_of_le two_pos hc.win_bounds.1) (by positivity)

/-- The noise of a whole macro-block. -/
theorem blockNoise_bounds (hc : NoiseLevel c σ) : ∃ n, (tileNoise c 0 0).val = fin n ∧ 0 < n ∧
    2 ^ 128 * leastPower c < 2 * n ∧ n ≤ (2 ^ 128 - 2 ^ 104) * leastPower c := by
  obtain ⟨n, hn, hn₀, hge, hle, -⟩ := tileNoise_bounds hc (show 0 < nblkTime by decide) (show 0 < nblkFreq by decide)
  have hwin := hc.win_bounds
  have hD := mul_bounds (by norm_num) (by linarith) hc.sq_bounds ⟨le_refl (c.winSize : ℝ), le_rfl⟩
  have hsize : ((mLambda 0 0 : ℚ) : ℝ) * (tileSize 0 0 : ℕ) = 192 := by
    have h : mLambda 0 0 * (tileSize 0 0 : ℕ) = 192 := by decide +kernel
    exact_mod_cast h
  rw [hsize] at hge hle
  refine ⟨n, hn, hn₀, ?_, ?_⟩
  · unfold leastPower
    norm_num at *
    linarith
  · unfold leastPower
    norm_num at *
    linarith

/-- With this power a macro-block is audible. -/
theorem audible_of_le (hc : NoiseLevel c σ) (h : fin (leastPower c) ≤ (blockPower coef i).val) : Audible c coef i := by
  obtain ⟨n, hn, hn₀, -, hle⟩ := blockNoise_bounds hc
  unfold Audible
  rw [val_div, hn]
  rcases eq_inf_or_fin h with hP | ⟨p, hP, hp⟩
  · rw [hP]
    exact ⟨0, R.zero⟩
  · have hp₀ : 0 < p := hc.leastPower_pos.trans_le hp
    obtain ⟨z, hz, -⟩ := R.near (n / p) (by
      rw [abs_of_nonneg (div_nonneg hn₀.le hp₀.le), div_le_iff₀ hp₀]
      exact hle.trans (mul_le_mul_of_nonneg_left hp (by norm_num)))
    rw [hP, fin_div hp₀.ne', fix_fin]
    exact ⟨z, hz⟩

/-- With half of it, it is not. -/
theorem not_audible_of_le (hc : NoiseLevel c σ) (hfin : FiniteBlock (blockOf coef i))
    (h : (blockPower coef i).val ≤ fin (leastPower c / 2)) : ¬ Audible c coef i := by
  obtain ⟨n, hn, hn₀, hge, -⟩ := blockNoise_bounds hc
  have hnonneg : fin 0 ≤ (blockPower coef i).val := by
    rw [blockPower_eq]
    exact hfin.tilePower_nonneg (by decide) (by decide)
  obtain ⟨p, hP, hp₀, hp⟩ := exists_fin hnonneg h
  rintro ⟨z, hz⟩
  rw [val_div, hn, hP] at hz
  rcases hp₀.eq_or_lt with rfl | hpos
  · rw [ExtFloat.div_zero hn₀] at hz
    exact ExtFloat.noConfusion hz
  · rw [fin_div hpos.ne', fix_fin] at hz
    have hlt := abs_lt_of_fin hz
    rw [abs_of_nonneg (div_nonneg hn₀.le hp₀), div_lt_iff₀ hpos] at hlt
    have hmul := mul_le_mul_of_nonneg_left hp (by norm_num : (0 : ℝ) ≤ 2 ^ 128)
    linarith

/-- A block with one coefficient. -/
theorem blockPower_single {t₀ k₀ : ℕ} (ht₀ : t₀ < maxNblkTime) (hk₀ : k₀ < maxNblkFreq)
    (h : ∀ t < maxNblkTime, ∀ k < maxNblkFreq, t ≠ t₀ ∨ k ≠ k₀ → (blockOf coef i t k).power.val = fin 0) :
    (blockPower coef i).val = (blockOf coef i t₀ k₀).power.val := by
  have hsum : blockPower coef i = ofRat 0 + (blockOf coef i t₀ k₀).power := by
    unfold blockPower powerSTFT
    rw [forLoop_single t₀, if_pos ⟨Nat.zero_le _, ht₀⟩, forLoop_single k₀, if_pos ⟨Nat.zero_le _, hk₀⟩]
    · rfl
    · exact fun k s _ hk hne => add_of_zero (h t₀ ht₀ k hk (Or.inr hne))
    · intro t s _ ht hne
      exact forLoop_inv (fun s' => s' = s) rfl fun k s' _ hk hs => (add_of_zero (h t ht k hk (Or.inl hne))).trans hs
  rw [hsum, val_add, val_zero, fin_zero_add]
  exact (blockOf coef i t₀ k₀).power.fixed

/-- Macro-block `i` is all zero. -/
def SilentBlock (coef : ℕ → ℕ → Cpx R.Float) (i : ℕ) : Prop :=
  ∀ t < maxNblkTime, ∀ k < maxNblkFreq, (blockOf coef i t k).r.val = fin 0 ∧ (blockOf coef i t k).i.val = fin 0

/-- **A silent macro-block is not audible.** -/
theorem not_audible_of_silent (hc : NoiseLevel c σ) (h : SilentBlock coef i) : ¬ Audible c coef i := by
  have hpower : ∀ t < maxNblkTime, ∀ k < maxNblkFreq, (blockOf coef i t k).power.val = fin 0 := by
    intro t ht k hk
    obtain ⟨hr, hi⟩ := h t ht k hk
    rw [Cpx.power, val_add, val_mul, val_mul, hr, hi]
    simp [R.zero]
  refine not_audible_of_le hc (fun t ht k hk => ⟨0, 0, h t ht k hk⟩) ?_
  rw [blockPower_single (show 0 < maxNblkTime by decide) (show 0 < maxNblkFreq by decide)
    fun t ht k hk _ => hpower t ht k hk, hpower 0 (by decide) 0 (by decide)]
  exact (half_pos hc.leastPower_pos).le

end Audible

/-! ## One coefficient -/

/-- A handle whose memory is all zero, but for the coefficient of bin 1 in the first window. -/
noncomputable def impulseHandle (x : R.Float) : Handle R.Float where
  haveNblkTime := 0
  sureMatrix _ _ := ofRat 0
  inbuf _ := ofRat 0
  inbufWin _ := ofRat 0
  outbuf _ := ofRat 0
  stftCoef t f := if t = 0 ∧ f = 1 then ⟨x, ofRat 0⟩ else ⟨ofRat 0, ofRat 0⟩
  stftThre _ _ := ⟨ofRat 0, ofRat 0⟩
  stftCoefBlock _ _ := ⟨ofRat 0, ofRat 0⟩
  stftCoefBlockNorm _ _ := ⟨ofRat 0, ofRat 0⟩

/-- The configuration for windows of 34 ms at 1000 Hz, which have one macro-block. -/
noncomputable def impulseConfig (R : Rounding) : Config R.Float := initConfig (fun _ => ofRat 0) 34 1000

section Impulse

variable {x : R.Float} {r : ℝ}

theorem power_real (hx : x.val = fin r) : (⟨x, ofRat 0⟩ : Cpx R.Float).power.val = R.round (r * r) := by
  rw [Cpx.power, val_add, val_mul, val_mul, hx, val_zero]
  simp only [fin_mul, mul_zero, fix_fin, R.zero, add_fin_zero]
  exact R.fix_fix (fin (r * r))

theorem finite_impulse (hx : x.val = fin r) (c : Config R.Float) : FiniteWindows c (impulseHandle x).stftCoef := by
  intro t _ f _
  simp only [impulseHandle]
  split_ifs
  · exact ⟨r, 0, hx, val_zero⟩
  · exact ⟨0, 0, val_zero, val_zero⟩

theorem blockPower_impulse (hx : x.val = fin r) : (blockPower (impulseHandle x).stftCoef 0).val = R.round (r * r) := by
  rw [blockPower_single (show 0 < maxNblkTime by decide) (show 0 < maxNblkFreq by decide), ← power_real hx]
  · rfl
  · intro t _ k _ h
    have hne : ¬ (t = 0 ∧ 1 + 0 * maxNblkFreq + k = 1) := by omega
    simp only [blockOf, impulseHandle, if_neg hne]
    rw [power_real val_zero, mul_zero, R.zero]

theorem impulseConfig_winSize : (impulseConfig R).winSize = 34 := rfl

theorem impulseConfig_halfNbMacroblkFrq : (impulseConfig R).halfNbMacroblkFrq = 1 := by
  unfold Config.halfNbMacroblkFrq
  rw [impulseConfig_winSize]
  decide

theorem noiseLevel_impulse (R : Rounding) : ∃ σ, NoiseLevel (impulseConfig R) σ := by
  refine NoiseLevel.of_init rfl ?_ ?_ <;> rw [impulseConfig_winSize] <;> decide

theorem leastPower_impulse : leastPower (impulseConfig R) = 34 / 2 ^ 130 := by
  rw [leastPower, impulseConfig_winSize]
  norm_num

/-- An impulse too faint to be heard. -/
theorem not_numbers_faint (hx : x.val = fin r) (h : R.round (r * r) ≤ fin (leastPower (impulseConfig R) / 2)) :
    ¬ Numbers (impulseConfig R) (impulseHandle x) := by
  obtain ⟨σ, hc⟩ := noiseLevel_impulse R
  have hfin := finite_impulse hx (impulseConfig R)
  have hi : 0 < (impulseConfig R).halfNbMacroblkFrq := by
    rw [impulseConfig_halfNbMacroblkFrq]
    exact zero_lt_one
  intro hn
  refine not_audible_of_le hc (hfin.block hi) ?_ (((numbers_iff hc _ hfin).mp hn).1 0 hi)
  rwa [blockPower_impulse hx]

/-- An impulse whose power overflows. -/
theorem not_numbers_loud (hx : x.val = fin r) (h : R.round (r * r) = inf false) :
    ¬ Numbers (impulseConfig R) (impulseHandle x) := by
  obtain ⟨σ, hc⟩ := noiseLevel_impulse R
  intro hn
  obtain ⟨w, hw⟩ := ((numbers_iff hc _ (finite_impulse hx _)).mp hn).2 0 (by decide) 1 (by
    rw [impulseConfig_winSize]
    decide)
  have hcoef : (impulseHandle x).stftCoef 0 1 = ⟨x, ofRat 0⟩ := by
    simp only [impulseHandle]
    rfl
  rw [hcoef, power_real hx, h] at hw
  exact ExtFloat.noConfusion hw

end Impulse

/-- **On finite windows, the thresholding leaves numbers exactly when every frequency macro-block is audible and no
power overflows. It is defined exactly when, besides, the noise is not lost next to the power of an attenuated
coefficient; where the powers are moderate, exactly when every macro-block is audible.** -/
theorem defined_iff (R : Rounding) (c : Config R.Float) (h : Handle R.Float)
    (hsigma : c.sigmaHanningNoise = sigmaHanning) (hwin : 2 ≤ c.winSize) (hmax : (c.winSize : ℤ) ≤ CInt.intMax)
    (hfin : FiniteWindows c h.stftCoef) :
    (Numbers c h ↔ (∀ i < c.halfNbMacroblkFrq, Audible c h.stftCoef i) ∧ FinitePowers c h.stftCoef) ∧
      (Defined c h ↔ Numbers c h ∧ ∀ t < maxNblkTime, ∀ f < (c.winSize + 1) / 2,
        NoiseCounts c ((blockThresholdCore c h).stftThre t f).power) ∧
      (Moderate c h.stftCoef → (Defined c h ↔ ∀ i < c.halfNbMacroblkFrq, Audible c h.stftCoef i)) := by
  obtain ⟨σ, hc⟩ := NoiseLevel.of_init hsigma hwin hmax
  have hnumbers := numbers_iff hc h hfin
  refine ⟨hnumbers, ⟨fun hd => ⟨hd.toNumbers, (hd.toNumbers.defined hc hfin).mp hd⟩, fun ⟨hn, hcounts⟩ =>
    (hn.defined hc hfin).mpr hcounts⟩, fun hmoderate => ⟨fun hd => (hnumbers.mp hd.toNumbers).1, fun haudible => ?_⟩⟩
  have hn := hnumbers.mpr ⟨haudible, hmoderate.finitePowers hfin⟩
  refine (hn.defined hc hfin).mpr fun t ht f hf => ?_
  have hz := hfin t ht f (by omega)
  have ha := hn.factor t ht f (by omega)
  rw [blockThresholdCore_stftThre c h ht (by omega)]
  exact hmoderate t ht f hf _ (hz.scale ha).power_nonneg (power_scale_le hz ha)

open Binary32

/-- One coefficient of 1 in a macro-block of zeros, and moderate powers. -/
theorem defined_impulse : 0 < (impulseConfig binary32).halfNbMacroblkFrq ∧
    Defined (impulseConfig binary32) (impulseHandle (ofRat 1)) := by
  have hfin := finite_impulse (R := binary32) val_one (impulseConfig binary32)
  have hdefined := (defined_iff binary32 (impulseConfig binary32) (impulseHandle (ofRat 1)) rfl
    (by rw [impulseConfig_winSize]; decide) (by rw [impulseConfig_winSize]; decide) hfin).2.2
  obtain ⟨σ, hc⟩ := noiseLevel_impulse binary32
  refine ⟨by rw [impulseConfig_halfNbMacroblkFrq]; decide, (hdefined (moderate_of_le hc fun t ht f hf => ?_)).mpr
    fun i hi => ?_⟩
  · rw [impulseConfig_winSize]
    simp only [impulseHandle]
    split_ifs
    · rw [power_real val_one, mul_one, binary32.one, fin_le]
      norm_num
    · rw [power_real val_zero, mul_zero, binary32.zero, fin_le]
      norm_num
  · rw [impulseConfig_halfNbMacroblkFrq, Nat.lt_one_iff] at hi
    subst hi
    refine audible_of_le hc ?_
    rw [blockPower_impulse val_one, mul_one, binary32.one, leastPower_impulse, fin_le]
    norm_num

/-- Silence, an impulse of `2 ^ -70` and one of `2 ^ 70`. -/
theorem not_defined_silence : 2 ≤ (impulseConfig binary32).winSize ∧
    1 ≤ (impulseConfig binary32).fs / (impulseConfig binary32).halfWinSize ∧
    (FiniteWindows (impulseConfig binary32) (impulseHandle (ofRat 0)).stftCoef ∧
      ¬ Defined (impulseConfig binary32) (impulseHandle (ofRat 0))) ∧
    (FiniteWindows (impulseConfig binary32) (impulseHandle (ofRat (1 / 2 ^ 70))).stftCoef ∧
      ¬ Defined (impulseConfig binary32) (impulseHandle (ofRat (1 / 2 ^ 70)))) ∧
    FiniteWindows (impulseConfig binary32) (impulseHandle (ofRat (2 ^ 70))).stftCoef ∧
      ¬ Defined (impulseConfig binary32) (impulseHandle (ofRat (2 ^ 70))) := by
  obtain ⟨r, hr, hr₀, -, hrle⟩ := (Approx.ofRat (R := binary32) (q := 1 / 2 ^ 70) (by norm_num) (by norm_num)).bounds
    (by decide)
  obtain ⟨s, hs, -, hsge, -⟩ := (Approx.ofRat (R := binary32) (q := 2 ^ 70) (by norm_num) (by norm_num)).bounds
    (by decide)
  refine ⟨by decide, by decide, ⟨finite_impulse val_zero _, fun hd => ?_⟩, ⟨finite_impulse hr _, fun hd => ?_⟩,
    finite_impulse hs _, fun hd => ?_⟩
  · refine not_numbers_faint val_zero ?_ hd.toNumbers
    rw [mul_zero, binary32.zero, leastPower_impulse, fin_le]
    positivity
  · refine not_numbers_faint hr ?_ hd.toNumbers
    have hsq := mul_self_le_mul_self hr₀.le hrle
    push_cast at hsq
    norm_num at hsq
    obtain ⟨y, hy, -, hle, -⟩ := round_bounds (R := binary32) (mul_self_nonneg r) (by norm_num; linarith)
    rw [hy, leastPower_impulse, fin_le]
    unfold tol tiny at hle
    norm_num at hle ⊢
    linarith
  · refine not_numbers_loud hs (binary32.overflow _ ?_) hd.toNumbers
    have hsq := mul_self_le_mul_self (by positivity) hsge
    push_cast at hsq
    norm_num at hsq ⊢
    linarith

end AudioProcess
