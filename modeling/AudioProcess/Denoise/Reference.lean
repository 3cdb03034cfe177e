import AudioProcess.Denoise.CoreSpec
import AudioProcess.Denoise.Windows
import AudioProcess.Lib.FirstMin
import Mathlib.Tactic.FieldSimp
import Mathlib.Tactic.Linarith
import Mathlib.Tactic.Positivity

/-!
# The reference block thresholding

Over the reals, the attenuation that `blockThreshold_core` is meant to apply, in its own terms: sums over
tiles, the first segmentation of least risk, one gain for each bin from DC to `win_size / 2`.

* `segmentationRisk`, `referenceFactor`, `referenceCoef`: the reference;
* `powerSTFT_real`, `sureTable_real`, `binFactor_real`, `tileFactor_real`: what the loops compute over the
  reals; `factor_eq_reference`: the attenuation factors are those of the reference;
* **`core_eq_reference_iff`**: the core applies the reference gain to every bin but the last, which it
  leaves as it is.

A division by zero is zero here on both sides; `DivisorsNonzero` says that there is none.
-/

namespace AudioProcess

open CFloat CLoop Mem Finset

/-! ## The reference -/

/-- Part `k` of `2 ^ s` equal parts of the `n` indices from `start` on. -/
def part (start n s k : ℕ) : Finset ℕ := Ico (start + n / 2 ^ s * k) (start + n / 2 ^ s * (k + 1))

/-- The power of the coefficients of a tile. -/
noncomputable def power (coef : ℕ → ℕ → Cpx ℝ) (rows cols : Finset ℕ) : ℝ :=
  ∑ t ∈ rows, ∑ f ∈ cols, ((coef t f).r ^ 2 + (coef t f).i ^ 2)

/-- The SURE risk of thresholding a tile of `n` cells with energy `E` at `lam`. -/
noncomputable def risk (lam n E : ℝ) : ℝ :=
  if lam * n < E then n + (lam ^ 2 * n ^ 2 - 2 * lam * n * (n - 2)) / E else E - n

variable (c : Config ℝ) (coef : ℕ → ℕ → Cpx ℝ)

/-- The energy of the real parts of a tile, in units of the noise. -/
noncomputable def noiseEnergy (rows cols : Finset ℕ) : ℝ :=
  ∑ t ∈ rows, ∑ f ∈ cols,
    ((coef t f).r * (Real.sqrt 2 / (Real.sqrt c.winSize * c.sigmaHanningNoise))) ^ 2

/-- The risk of cutting frequency macro-block `i` into `2 ^ T` by `2 ^ Fq` equal tiles. -/
noncomputable def segmentationRisk (i T Fq : ℕ) : ℝ :=
  ∑ ii ∈ range (2 ^ T), ∑ jj ∈ range (2 ^ Fq),
    risk (mLambda T Fq) (8 / 2 ^ T * (16 / 2 ^ Fq) : ℕ)
      (noiseEnergy c coef (part 0 8 T ii) (part (1 + 16 * i) 16 Fq jj))

/-- The number of full macro-blocks between the DC bin and bin `win_size / 2`. -/
def macroBlocks : ℕ := (c.winSize / 2 - 1) / 16

/-- The attenuation of a tile with threshold `lamSize` (`lambda` times its size) and power `p`. -/
noncomputable def attenuation (lamSize p : ℝ) : ℝ :=
  max 0 (1 - lamSize * c.sigmaHanningNoise ^ 2 * c.winSize / p)

/-- The attenuation of bin `f` in window `t` when macro-block `i` is cut as `seg i` says: that of its tile,
or of its own column for the DC bin and the bins after the last full macro-block. -/
noncomputable def referenceFactor (seg : ℕ → ℕ × ℕ) (t f : ℕ) : ℝ :=
  if 1 ≤ f ∧ f < 1 + 16 * macroBlocks c then
    let i := (f - 1) / 16
    let T := (seg i).1
    let Fq := (seg i).2
    attenuation c (mLambda T Fq * (8 / 2 ^ T * (16 / 2 ^ Fq) : ℕ))
      (power coef (part 0 8 T (t / (8 / 2 ^ T))) (part (1 + 16 * i) 16 Fq ((f - 1) % 16 / (16 / 2 ^ Fq))))
  else attenuation c 20 (power coef (range 8) {f})

/-- The Wiener gain for the attenuation `a` of the coefficient `z`. -/
noncomputable def referenceGain (a : ℝ) (z : Cpx ℝ) : ℝ :=
  let p := (a * z.r) ^ 2 + (a * z.i) ^ 2
  p / (p + c.winSize * c.sigmaHanningNoise ^ 2)

/-- The low-band factor. -/
noncomputable def lowBand (f : ℕ) : ℝ := if (f : ℤ) < lowFIndex c then 0.45 else 1

/-- The coefficient of window `t` at bin `f` after the reference block thresholding. -/
noncomputable def referenceCoef (seg : ℕ → ℕ × ℕ) (t f : ℕ) : Cpx ℝ :=
  (coef t f).scale (referenceGain c (referenceFactor c coef seg t f) (coef t f) * lowBand c f)

/-- Every divisor of the block thresholding is nonzero. -/
structure DivisorsNonzero : Prop where
  band : c.fs / c.halfWinSize ≠ 0
  noise : Real.sqrt c.winSize * c.sigmaHanningNoise ≠ 0
  energy : ∀ i < macroBlocks c, ∀ T < 3, ∀ Fq < 5, ∀ ii < 2 ^ T, ∀ jj < 2 ^ Fq,
    noiseEnergy c coef (part 0 8 T ii) (part (1 + 16 * i) 16 Fq jj) ≠ 0
  tile : ∀ i < macroBlocks c, ∀ T < 3, ∀ Fq < 5, ∀ ii < 2 ^ T, ∀ jj < 2 ^ Fq,
    power coef (part 0 8 T ii) (part (1 + 16 * i) 16 Fq jj) ≠ 0
  column : ∀ f ≤ c.winSize / 2, f = 0 ∨ 1 + 16 * macroBlocks c ≤ f → power coef (range 8) {f} ≠ 0

/-! ## The loops over the reals -/

theorem ofRat_zero_real : (ofRat 0 : ℝ) = 0 := by simp

theorem powerSTFT_real (data : ℕ → ℕ → Cpx ℝ) (r₀ r₁ c₀ c₁ : ℕ) :
    powerSTFT data r₀ r₁ c₀ c₁ = power data (Ico r₀ (r₁ + 1)) (Ico c₀ (c₁ + 1)) := by
  have hrow : ∀ row s, forLoop c₀ (c₁ + 1) (fun col sum =>
      sum + ((data row col).r * (data row col).r + (data row col).i * (data row col).i)) s =
      s + ∑ f ∈ Ico c₀ (c₁ + 1), ((data row f).r ^ 2 + (data row f).i ^ 2) := by
    intro row s
    rw [forLoop_sum]
    simp only [pow_two]
  have hall := forLoop_sum r₀ (r₁ + 1)
    (fun row => ∑ f ∈ Ico c₀ (c₁ + 1), ((data row f).r ^ 2 + (data row f).i ^ 2)) (0 : ℝ)
  rw [zero_add] at hall
  unfold powerSTFT power
  rw [← hall, ofRat_zero_real]
  exact forLoop_congr _ fun row s _ _ => hrow row s

theorem energyRealSTFT_real (data : ℕ → ℕ → Cpx ℝ) (r₀ r₁ c₀ c₁ : ℕ) :
    energyRealSTFT data r₀ r₁ c₀ c₁ =
      ∑ t ∈ Ico r₀ (r₁ + 1), ∑ f ∈ Ico c₀ (c₁ + 1), (data t f).r ^ 2 := by
  have hrow : ∀ row s, forLoop c₀ (c₁ + 1) (fun col sum => sum + (data row col).r * (data row col).r) s =
      s + ∑ f ∈ Ico c₀ (c₁ + 1), (data row f).r ^ 2 := by
    intro row s
    rw [forLoop_sum]
    simp only [pow_two]
  have hall := forLoop_sum r₀ (r₁ + 1) (fun row => ∑ f ∈ Ico c₀ (c₁ + 1), (data row f).r ^ 2) (0 : ℝ)
  rw [zero_add] at hall
  unfold energyRealSTFT
  rw [← hall, ofRat_zero_real]
  exact forLoop_congr _ fun row s _ _ => hrow row s

theorem sureTile_real (q : ℚ) (n : ℕ) (E : ℝ) : sureTile (ofRat q) (ofNat n) E = risk q n E := by
  simp only [sureTile, risk, ofBool, ofRat_real, ofNat_real, gt_iff_lt]
  split_ifs with hlt hle hle
  · exact absurd hlt (not_lt.mpr hle)
  · push_cast
    ring
  · push_cast
    ring
  · exact absurd (not_lt.mp hlt) hle

theorem blockNorm_real :
    blockNorm c = Real.sqrt 2 / (Real.sqrt c.winSize * c.sigmaHanningNoise) := by
  have htwo : ((2 : ℚ) : ℝ) = 2 := by norm_num
  show Real.sqrt (ofRat 2) / (Real.sqrt (ofNat c.winSize) * c.sigmaHanningNoise) = _
  rw [ofRat_real, ofNat_real, htwo]

/-- The last index of a part is the one before the next part. -/
theorem Ico_part {p s k : ℕ} (n : ℕ) (hn : n = 2 ^ p) (hs : s ≤ p) :
    Ico (n / 2 ^ s * k) (n / 2 ^ s * (k + 1) - 1 + 1) = part 0 n s k := by
  have hpos : 0 < n / 2 ^ s * (k + 1) := Nat.mul_pos (tile_pos hn hs) k.succ_pos
  rw [part, Nat.zero_add, Nat.zero_add, Nat.sub_add_cancel hpos]

/-- Sums over the columns of a macro-block. -/
theorem sum_part_shift (g : ℕ → ℝ) (start n s k : ℕ) :
    ∑ f ∈ part 0 n s k, g (start + f) = ∑ f ∈ part start n s k, g f := by
  rw [part, part, Nat.zero_add, Nat.zero_add, sum_Ico_add, Nat.add_comm start, Nat.add_comm start]

variable {T Fq : ℕ}

theorem sureTable_real (hT : T < nblkTime) (hFq : Fq < nblkFreq) (i : ℕ) :
    sureTable c coef i T Fq = segmentationRisk c coef i T Fq := by
  have hTime : T ≤ 3 := Nat.le_of_lt hT
  have hFreq : Fq ≤ 4 := Nat.le_of_lt_succ hFq
  have htile : ∀ ii jj, energyRealSTFT (fun t k => (blockOf coef i t k).scale (blockNorm c))
      (maxNblkTime / 2 ^ T * ii) (maxNblkTime / 2 ^ T * (ii + 1) - 1) (maxNblkFreq / 2 ^ Fq * jj)
      (maxNblkFreq / 2 ^ Fq * (jj + 1) - 1) =
      noiseEnergy c coef (part 0 8 T ii) (part (1 + 16 * i) 16 Fq jj) := by
    intro ii jj
    rw [energyRealSTFT_real, Ico_part maxNblkTime rfl hTime, Ico_part maxNblkFreq rfl hFreq, noiseEnergy,
      blockNorm_real]
    refine sum_congr rfl fun t _ => ?_
    rw [← sum_part_shift _ (1 + 16 * i), Nat.mul_comm 16 i]
    rfl
  have hcols : ∀ ii s, forLoop 0 (2 ^ Fq) (fun jj sure => sure + sureTile (ofRat (mLambda T Fq))
      (ofNat (maxNblkTime / 2 ^ T * (maxNblkFreq / 2 ^ Fq)))
      (energyRealSTFT (fun t k => (blockOf coef i t k).scale (blockNorm c))
        (maxNblkTime / 2 ^ T * ii) (maxNblkTime / 2 ^ T * (ii + 1) - 1) (maxNblkFreq / 2 ^ Fq * jj)
        (maxNblkFreq / 2 ^ Fq * (jj + 1) - 1))) s =
      s + ∑ jj ∈ range (2 ^ Fq), risk (mLambda T Fq) (8 / 2 ^ T * (16 / 2 ^ Fq) : ℕ)
        (noiseEnergy c coef (part 0 8 T ii) (part (1 + 16 * i) 16 Fq jj)) := by
    intro ii s
    rw [forLoop_sum, ← range_eq_Ico]
    refine congrArg (s + ·) (sum_congr rfl fun jj _ => ?_)
    rw [htile, sureTile_real]
    rfl
  have hrows := forLoop_sum 0 (2 ^ T) (fun ii => ∑ jj ∈ range (2 ^ Fq),
    risk (mLambda T Fq) (8 / 2 ^ T * (16 / 2 ^ Fq) : ℕ)
      (noiseEnergy c coef (part 0 8 T ii) (part (1 + 16 * i) 16 Fq jj))) (0 : ℝ)
  rw [zero_add, ← range_eq_Ico] at hrows
  rw [segmentationRisk, ← hrows, sureTable, sureReal, ofRat_zero_real]
  exact forLoop_congr _ fun ii s _ _ => hcols ii s

/-- **The segmentation the code chooses** is the first one of least risk. -/
theorem segmentation_firstMin (i : ℕ) :
    FirstMin 3 5 (segmentationRisk c coef i) (segmentation c coef i) := by
  have hmin := forLoop_firstMin (m := nblkTime) (n := nblkFreq) (by decide) (by decide) (sureTable c coef i)
  have hscan : minSure (sureTable c coef i) = forLoop 0 nblkTime (fun T s =>
      forLoop 0 nblkFreq (fun Fq s => better (sureTable c coef i) T Fq s) s) (sureTable c coef i 0 0, 0, 0) :=
    forLoop_congr _ fun T s _ _ => forLoop_congr _ fun Fq s _ _ => if_congr Iff.rfl rfl rfl
  rw [← hscan] at hmin
  exact hmin.congr fun T hT Fq hFq => sureTable_real c coef hT hFq i

/-! ## The attenuation factors -/

theorem binFactor_real (f : ℕ) : binFactor c coef f = attenuation c 20 (power coef (range 8) {f}) := by
  have hpower : powerSTFT coef 0 (maxNblkTime - 1) f f = power coef (range 8) {f} := by
    rw [powerSTFT_real, Nat.Ico_succ_singleton, ← range_eq_Ico]
    rfl
  simp only [binFactor, hpower, attenuation, ofRat_real, ofNat_real]
  push_cast
  rw [show (2.5 : ℝ) * 8 * (c.sigmaHanningNoise * c.sigmaHanningNoise) * c.winSize =
    20 * c.sigmaHanningNoise ^ 2 * c.winSize by ring]
  split_ifs with hneg
  · exact (max_eq_left hneg.le).symm
  · exact (max_eq_right (not_lt.mp hneg)).symm

theorem tileFactor_real (hT : T < nblkTime) (hFq : Fq < nblkFreq) (i ii jj : ℕ) :
    tileFactor c (blockOf coef i) T Fq ii jj =
      attenuation c (mLambda T Fq * (8 / 2 ^ T * (16 / 2 ^ Fq) : ℕ))
        (power coef (part 0 8 T ii) (part (1 + 16 * i) 16 Fq jj)) := by
  have hTime : T ≤ 3 := Nat.le_of_lt hT
  have hFreq : Fq ≤ 4 := Nat.le_of_lt_succ hFq
  have hpower : powerSTFT (blockOf coef i) (maxNblkTime / 2 ^ T * ii) (maxNblkTime / 2 ^ T * (ii + 1) - 1)
      (maxNblkFreq / 2 ^ Fq * jj) (maxNblkFreq / 2 ^ Fq * (jj + 1) - 1) =
      power coef (part 0 8 T ii) (part (1 + 16 * i) 16 Fq jj) := by
    rw [powerSTFT_real, Ico_part maxNblkTime rfl hTime, Ico_part maxNblkFreq rfl hFreq]
    refine sum_congr rfl fun t _ => ?_
    rw [← sum_part_shift _ (1 + 16 * i), Nat.mul_comm 16 i]
    rfl
  simp only [tileFactor, hpower, attenuation, ofBool, ofRat_real, ofNat_real]
  push_cast
  rw [show (mLambda T Fq : ℝ) * (maxNblkTime / 2 ^ T : ℕ) * (maxNblkFreq / 2 ^ Fq : ℕ) *
      (c.sigmaHanningNoise * c.sigmaHanningNoise) * c.winSize =
    mLambda T Fq * ((8 / 2 ^ T : ℕ) * (16 / 2 ^ Fq : ℕ)) * c.sigmaHanningNoise ^ 2 * c.winSize by
      simp only [maxNblkTime, maxNblkFreq]
      ring]
  split_ifs with hpos
  · rw [mul_one, max_eq_right (le_of_lt hpos)]
  · rw [mul_zero, max_eq_left (not_lt.mp hpos)]

variable {c} {coef} {h : Handle ℝ}

/-- With an even window the last macro-block ends before bin `win_size / 2`. -/
theorem halfNbMacroblkFrq_eq (heven : c.winSize % 2 = 0) : c.halfNbMacroblkFrq = macroBlocks c := by
  rw [Config.halfNbMacroblkFrq, macroBlocks, maxNblkFreq]
  omega

theorem factor_eq_reference (heven : c.winSize % 2 = 0) (t f : ℕ) :
    factor c coef t f = referenceFactor c coef (segmentation c coef) t f := by
  have hlast : c.idxFreqLast = 1 + 16 * macroBlocks c := by
    rw [Config.idxFreqLast, halfNbMacroblkFrq_eq heven, Nat.mul_comm]
    rfl
  unfold factor referenceFactor
  rw [hlast]
  split_ifs with hin
  · have hchosen := segmentation_chosen c coef ((f - 1) / 16)
    exact tileFactor_real c coef hchosen.1 hchosen.2.1 _ _ _
  · exact binFactor_real c coef f

/-! ## The gain -/

/-- The Wiener loop's body is the reference gain. -/
theorem wienerBin_real (f : ℕ) (a : ℝ) (z : Cpx ℝ) :
    wienerBin c f (z.scale a) z = z.scale (referenceGain c a z * lowBand c f) := by
  have hgain : wienerGain c (z.scale a) = referenceGain c a z := by
    simp only [wienerGain, referenceGain, Cpx.scale, ofNat_real]
    ring
  have hlow : (ofRat 0.45 : ℝ) = 0.45 := by
    rw [ofRat_real]
    norm_num
  simp only [wienerBin, lowBand, hgain, hlow]
  split_ifs
  · simp only [Cpx.scale, mul_assoc]
  · rw [mul_one]

/-- The gain and the low-band factor together are less than one. -/
theorem gain_lt_one (hσ : 0 < c.sigmaHanningNoise) (hwin : 0 < c.winSize) (a : ℝ) (z : Cpx ℝ) (f : ℕ) :
    referenceGain c a z * lowBand c f < 1 := by
  have hp : 0 ≤ (a * z.r) ^ 2 + (a * z.i) ^ 2 := by positivity
  have hnoise : 0 < (c.winSize : ℝ) * c.sigmaHanningNoise ^ 2 := by positivity
  have hgain₀ : 0 ≤ referenceGain c a z := div_nonneg hp (by linarith)
  have hgain₁ : referenceGain c a z < 1 := by
    rw [referenceGain, div_lt_one (by linarith)]
    linarith
  have hlow : lowBand c f ≤ 1 := by
    unfold lowBand
    split_ifs <;> norm_num
  calc referenceGain c a z * lowBand c f ≤ referenceGain c a z * 1 :=
        mul_le_mul_of_nonneg_left hlow hgain₀
    _ = referenceGain c a z := mul_one _
    _ < 1 := hgain₁

/-- A factor below one keeps zero only. -/
theorem Cpx.scale_eq_self_iff {z : Cpx ℝ} {g : ℝ} (hg : g < 1) : z = z.scale g ↔ z = ⟨0, 0⟩ := by
  have hzero : ∀ x : ℝ, x = x * g → x = 0 := by
    intro x hx
    have : x * (1 - g) = 0 := by linarith
    exact (mul_eq_zero.mp this).resolve_right (by linarith)
  constructor
  · intro h
    obtain ⟨hr, hi⟩ := Cpx.mk.inj h
    exact congrArg₂ Cpx.mk (hzero _ hr) (hzero _ hi)
  · rintro rfl
    exact congrArg₂ Cpx.mk (zero_mul g).symm (zero_mul g).symm

theorem sigmaHanning_pos : 0 < (sigmaHanning : ℝ) := by
  show 0 < (ofRat 0.047 : ℝ) * Real.sqrt (ofRat 0.375)
  rw [ofRat_real, ofRat_real]
  exact mul_pos (by norm_num) (Real.sqrt_pos.mpr (by norm_num))

/-! ## The core -/

/-- Below bin `win_size / 2` the core applies the reference gain. -/
theorem coreCoef_of_lt (heven : c.winSize % 2 = 0) {t f : ℕ} (ht : t < 8) (hf : f < c.winSize / 2) :
    coreCoef c coef t f = referenceCoef c coef (segmentation c coef) t f := by
  rw [coreCoef, if_pos ⟨ht, by omega⟩, wienerBin_real, factor_eq_reference heven]
  rfl

/-- Bin `win_size / 2` stays as it was. -/
theorem coreCoef_last (heven : c.winSize % 2 = 0) (t : ℕ) :
    coreCoef c coef t (c.winSize / 2) = coef t (c.winSize / 2) := if_neg (by omega)

/-- Where the last bin's power is not zero, some coefficient of it is not. -/
theorem exists_of_power_ne_zero {f : ℕ} (hp : power coef (range 8) {f} ≠ 0) :
    ∃ t < 8, coef t f ≠ ⟨0, 0⟩ := by
  by_contra hall
  push Not at hall
  refine hp (sum_eq_zero fun t ht => ?_)
  rw [sum_singleton, hall t (mem_range.mp ht)]
  norm_num

theorem DivisorsNonzero.last_column (hd : DivisorsNonzero c coef) (hwin : 2 ≤ c.winSize) :
    power coef (range 8) {c.winSize / 2} ≠ 0 := by
  apply hd.column _ le_rfl
  right
  have hle : 16 * macroBlocks c ≤ c.winSize / 2 - 1 := Nat.mul_div_le _ 16
  omega

/-- **The core applies the reference block thresholding to every bin below `win_size / 2`**, with the first
segmentation of least risk in each macro-block. Bin `win_size / 2` gets no gain, so it is right there only
where the coefficient is zero; where every divisor is nonzero, it is not in some window. -/
theorem core_eq_reference_iff (hσ : c.sigmaHanningNoise = sigmaHanning) (heven : c.winSize % 2 = 0)
    (hwin : 2 ≤ c.winSize) (h : Handle ℝ) :
    ∃ seg : ℕ → ℕ × ℕ, (∀ i < macroBlocks c, FirstMin 3 5 (segmentationRisk c h.stftCoef i) (seg i)) ∧
      (∀ t < 8, ∀ f ≤ c.winSize / 2,
        ((blockThresholdCore c h).stftCoef t f = referenceCoef c h.stftCoef seg t f ↔
          f < c.winSize / 2 ∨ h.stftCoef t f = ⟨0, 0⟩)) ∧
      (DivisorsNonzero c h.stftCoef → ∃ t < 8, (blockThresholdCore c h).stftCoef t (c.winSize / 2) ≠
        referenceCoef c h.stftCoef seg t (c.winSize / 2)) := by
  have hσ₀ : 0 < c.sigmaHanningNoise := hσ ▸ sigmaHanning_pos
  have hbin : ∀ t < 8, ∀ f ≤ c.winSize / 2,
      ((blockThresholdCore c h).stftCoef t f = referenceCoef c h.stftCoef (segmentation c h.stftCoef) t f ↔
        f < c.winSize / 2 ∨ h.stftCoef t f = ⟨0, 0⟩) := by
    intro t ht f hf
    rw [blockThresholdCore_stftCoef]
    rcases Nat.lt_or_eq_of_le hf with hlt | rfl
    · exact iff_of_true (coreCoef_of_lt heven ht hlt) (Or.inl hlt)
    · rw [coreCoef_last heven, referenceCoef, Cpx.scale_eq_self_iff (gain_lt_one hσ₀ (by omega) _ _ _)]
      simp only [lt_irrefl, false_or]
  refine ⟨segmentation c h.stftCoef, fun i _ => segmentation_firstMin c h.stftCoef i, hbin, fun hd => ?_⟩
  obtain ⟨t, ht, hne⟩ := exists_of_power_ne_zero (hd.last_column hwin)
  refine ⟨t, ht, fun heq => ?_⟩
  rcases (hbin t ht _ le_rfl).mp heq with hlt | hzero
  · exact lt_irrefl _ hlt
  · exact hne hzero

theorem part_nonempty {start n p s k : ℕ} (hn : n = 2 ^ p) (hs : s ≤ p) : (part start n s k).Nonempty := by
  have hpos := tile_pos hn hs
  rw [part, nonempty_Ico, Nat.mul_succ]
  omega

/-- A handle whose coefficients are all one. -/
noncomputable def onesHandle : Handle ℝ := { zeroHandle with stftCoef := fun _ _ => ⟨1, 0⟩ }

theorem power_onesHandle {rows cols : Finset ℕ} (hrows : rows.Nonempty) (hcols : cols.Nonempty) :
    power onesHandle.stftCoef rows cols ≠ 0 := by
  refine (sum_pos (fun t _ => sum_pos (fun f _ => ?_) hcols) hrows).ne'
  norm_num [onesHandle]

/-- The configuration for windows of 34 ms at 1000 Hz, which have one macro-block. -/
noncomputable def blockConfig : Config ℝ := initConfig (fun _ => 0) 34 1000

theorem divisorsNonzero_ones : DivisorsNonzero blockConfig onesHandle.stftCoef := by
  have hnoise : 0 < Real.sqrt blockConfig.winSize * blockConfig.sigmaHanningNoise :=
    mul_pos (Real.sqrt_pos.mpr (Nat.cast_pos.mpr (by decide))) sigmaHanning_pos
  refine ⟨by decide, hnoise.ne', fun i _ T hT Fq hFq ii _ jj _ => ?_, fun i _ T hT Fq hFq ii _ jj _ => ?_,
    fun f _ _ => power_onesHandle (nonempty_range_iff.mpr (by decide)) (singleton_nonempty f)⟩
  · have hrows : (part 0 8 T ii).Nonempty := part_nonempty (p := 3) rfl (by omega)
    have hcols : (part (1 + 16 * i) 16 Fq jj).Nonempty := part_nonempty (p := 4) rfl (by omega)
    refine (sum_pos (fun t _ => sum_pos (fun f _ => ?_) hcols) hrows).ne'
    have hone : (onesHandle.stftCoef t f).r = 1 := rfl
    rw [hone, one_mul]
    exact pow_pos (div_pos (Real.sqrt_pos.mpr two_pos) hnoise) 2
  · exact power_onesHandle (part_nonempty (p := 3) rfl (by omega)) (part_nonempty (p := 4) rfl (by omega))

/-- Windows of 34 samples whose coefficients are all one: seventeen bins get the gain of the first best segmentation of
the macro-block, and the last one does not. -/
theorem core_eq_reference_iff_block : ∃ seg : ℕ → ℕ × ℕ,
    FirstMin 3 5 (segmentationRisk blockConfig onesHandle.stftCoef 0) (seg 0) ∧
    (∀ t < 8, ∀ f < 17, (blockThresholdCore blockConfig onesHandle).stftCoef t f =
      referenceCoef blockConfig onesHandle.stftCoef seg t f) ∧
    ∃ t < 8, (blockThresholdCore blockConfig onesHandle).stftCoef t 17 ≠
      referenceCoef blockConfig onesHandle.stftCoef seg t 17 := by
  obtain ⟨seg, hseg, hbin, hlast⟩ := core_eq_reference_iff (c := blockConfig) rfl rfl (by decide) onesHandle
  refine ⟨seg, hseg 0 (by decide), fun t ht f hf => (hbin t ht f ?_).mpr (Or.inl hf), hlast divisorsNonzero_ones⟩
  exact hf.le

/-- Windows of two samples whose coefficients are all one: every divisor is nonzero, and bin `1` keeps its
coefficients. -/
theorem not_reference_pair : ¬ ∀ c : Config ℝ, c.sigmaHanningNoise = sigmaHanning → c.winSize % 2 = 0 →
    2 ≤ c.winSize → ∀ h : Handle ℝ, DivisorsNonzero c h.stftCoef → ∃ seg : ℕ → ℕ × ℕ,
      (∀ i < macroBlocks c, FirstMin 3 5 (segmentationRisk c h.stftCoef i) (seg i)) ∧
        ∀ t < 8, ∀ f ≤ c.winSize / 2,
          (blockThresholdCore c h).stftCoef t f = referenceCoef c h.stftCoef seg t f := by
  intro hall
  have hpower : ∀ f, power onesHandle.stftCoef (range 8) {f} ≠ 0 := fun f =>
    power_onesHandle (nonempty_range_iff.mpr (by decide)) (singleton_nonempty f)
  have hnoise : Real.sqrt pairConfig.winSize * pairConfig.sigmaHanningNoise ≠ 0 :=
    mul_ne_zero (Real.sqrt_ne_zero'.mpr (Nat.cast_pos.mpr Nat.two_pos)) sigmaHanning_pos.ne'
  have hnone : ¬ ∃ i, i < macroBlocks pairConfig := by
    rintro ⟨i, hi⟩
    exact Nat.not_lt_zero i hi
  have hd : DivisorsNonzero pairConfig onesHandle.stftCoef :=
    ⟨by decide, hnoise, fun i hi => absurd ⟨i, hi⟩ hnone, fun i hi => absurd ⟨i, hi⟩ hnone, fun f _ _ => hpower f⟩
  obtain ⟨seg, -, hbins⟩ := hall pairConfig rfl rfl le_rfl onesHandle hd
  have hbin := hbins 0 (by decide) 1 le_rfl
  rw [blockThresholdCore_stftCoef, show (1 : ℕ) = pairConfig.winSize / 2 from rfl, coreCoef_last rfl,
    referenceCoef, Cpx.scale_eq_self_iff (gain_lt_one sigmaHanning_pos Nat.two_pos _ _ _)] at hbin
  exact one_ne_zero (congrArg Cpx.r hbin)

end AudioProcess
