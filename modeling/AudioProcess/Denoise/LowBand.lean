import AudioProcess.Denoise.CoreSpec
import AudioProcess.Denoise.Windows
import Mathlib.Algebra.Order.Floor.Semifield

/-!
# The low band of `blockThreshold_wiener`

`blockThreshold_wiener` attenuates the bins before `low_f_index` once more, by `0.45`. Over the reals; the
quotient `500 / d` that it truncates has an integer divisor, so that rounding does not change its integer
part.

* `lowFIndex_real`: the index is the integer quotient of 500 by `fs / half_win_size`;
* `LowBandExact`: the bins below 500 Hz get the factor, and no others;
* **`lowBandExact_iff`**.
-/

namespace AudioProcess

open CFloat

/-- The Wiener filter multiplies a bin by its gain and, exactly when the centre frequency of the bin is below
500 Hz, by `0.45`. -/
def LowBandExact (c : Config ℝ) : Prop :=
  ∀ (h : Handle ℝ), ∀ t < maxNblkTime, ∀ f < c.winSize / 2, (blockThresholdWiener c h).stftCoef t f =
    ((h.stftCoef t f).scale (wienerGain c (h.stftThre t f))).scale
      (if (f : ℝ) * c.fs / c.winSize < 500 then 0.45 else 1)

variable {c : Config ℝ} {half : ℕ}

theorem lowFIndex_real (c : Config ℝ) : lowFIndex c = (500 / (c.fs / c.halfWinSize) : ℕ) := by
  have hcast : (((500 : ℚ) : ℝ) / ((c.fs / c.halfWinSize : ℕ) : ℝ)) =
      ((500 : ℕ) : ℝ) / ((c.fs / c.halfWinSize : ℕ) : ℝ) := by norm_num
  have hnonneg : (0 : ℝ) ≤ ((500 : ℕ) : ℝ) / ((c.fs / c.halfWinSize : ℕ) : ℝ) := by positivity
  show (if 0 ≤ (ofRat 500 / ofNat (c.fs / c.halfWinSize) : ℝ) then
      ⌊(ofRat 500 / ofNat (c.fs / c.halfWinSize) : ℝ)⌋ else _) = _
  rw [ofRat_real, ofNat_real, hcast, if_pos hnonneg, ← Int.natCast_floor_eq_floor hnonneg,
    Nat.floor_div_eq_div]

/-- The centre frequency of a bin, against 500 Hz. -/
theorem freq_lt_iff (hwin : c.winSize = 2 * half) (hhalf : 1 ≤ half) (f : ℕ) :
    (f : ℝ) * c.fs / c.winSize < 500 ↔ f * c.fs < 1000 * half := by
  have hpos : (0 : ℝ) < c.winSize := by
    rw [hwin]
    exact_mod_cast (by omega : 0 < 2 * half)
  rw [div_lt_iff₀ hpos, hwin]
  constructor
  · intro h
    have h' : ((f * c.fs : ℕ) : ℝ) < ((1000 * half : ℕ) : ℝ) := by
      push_cast at h ⊢
      linarith
    exact_mod_cast h'
  · intro h
    have h' : ((f * c.fs : ℕ) : ℝ) < ((1000 * half : ℕ) : ℝ) := by exact_mod_cast h
    push_cast at h' ⊢
    linarith

/-- The bin `low_f_index` itself is below 500 Hz. -/
theorem index_mul_lt {fs : ℕ} (hhalf : 1 ≤ half) (hfs : half ≤ fs) : 500 / (fs / half) * fs < 1000 * half := by
  have hd : 1 ≤ fs / half := (Nat.one_le_div_iff hhalf).mpr hfs
  have hquot : fs < (fs / half + 1) * half := Nat.lt_mul_of_div_lt (Nat.lt_succ_self _) hhalf
  have hle : 500 / (fs / half) * (fs / half) ≤ 500 := Nat.div_mul_le_self 500 _
  have hle' : 500 / (fs / half) ≤ 500 := Nat.div_le_self 500 _
  rcases Nat.eq_zero_or_pos (500 / (fs / half)) with hzero | hpos
  · rw [hzero]
    omega
  · calc 500 / (fs / half) * fs < 500 / (fs / half) * ((fs / half + 1) * half) :=
          Nat.mul_lt_mul_of_pos_left hquot hpos
      _ = (500 / (fs / half) * (fs / half) + 500 / (fs / half)) * half := by ring
      _ ≤ 1000 * half := Nat.mul_le_mul_right half (by omega)

theorem wienerBin_index (f : ℕ) (thre z : Cpx ℝ) : wienerBin c f thre z =
    (z.scale (wienerGain c thre)).scale (if f < 500 / (c.fs / c.halfWinSize) then 0.45 else 1) := by
  unfold wienerBin
  rw [lowFIndex_real]
  by_cases hf : f < 500 / (c.fs / c.halfWinSize)
  · rw [if_pos hf, if_pos (by exact_mod_cast hf), ofRat_real]
    norm_num
  · rw [if_neg hf, if_neg (by exact_mod_cast hf)]
    simp [Cpx.scale]

/-- A handle whose attenuated coefficients, and those to filter, are all one. -/
noncomputable def oneHandle : Handle ℝ :=
  { zeroHandle with stftCoef := fun _ _ => ⟨1, 0⟩, stftThre := fun _ _ => ⟨1, 0⟩ }

/-- The filter, bin by bin: its gain on `oneHandle` is not zero, and shows the factor. -/
theorem lowBandExact_iff_bins (hwin : c.winSize = 2 * half) : LowBandExact c ↔ ∀ f < half,
    (f < 500 / (c.fs / c.halfWinSize) ↔ (f : ℝ) * c.fs / c.winSize < 500) := by
  have hbins : c.winSize / 2 = half ∧ (c.winSize + 1) / 2 = half := by omega
  unfold LowBandExact
  rw [hbins.1]
  constructor
  · intro h f hf
    have heq := congrArg Cpx.r (h oneHandle 0 (by decide) f hf)
    rw [blockThresholdWiener_stftCoef, hbins.2, if_pos ⟨by decide, hf⟩, wienerBin_index] at heq
    have hgain : (1 : ℝ) * wienerGain c ⟨1, 0⟩ ≠ 0 := by
      have hden : (0 : ℝ) < 1 + c.winSize * (c.sigmaHanningNoise * c.sigmaHanningNoise) :=
        add_pos_of_pos_of_nonneg one_pos (mul_nonneg (Nat.cast_nonneg _) (mul_self_nonneg _))
      simp only [wienerGain, ofNat_real]
      norm_num
      exact hden.ne'
    have hfactor := mul_left_cancel₀ hgain heq
    split_ifs at hfactor with h₁ h₂ h₂
    · exact iff_of_true h₁ h₂
    · norm_num at hfactor
    · norm_num at hfactor
    · exact iff_of_false h₁ h₂
  · intro h h' t ht f hf
    rw [blockThresholdWiener_stftCoef, hbins.2, if_pos ⟨ht, hf⟩, wienerBin_index]
    simp only [h f hf]

/-- **The attenuated band is the band below 500 Hz** when all of the spectrum is: the spacing of the bins is
taken to be twice what it is, and the first bin after the band is below 500 Hz too, unless there is none. -/
theorem lowBandExact_iff (c : Config ℝ) (hwin : c.winSize = 2 * half) (hhalf : 1 ≤ half) (hfs : half ≤ c.fs) :
    LowBandExact c ↔ c.fs - c.fs % half ≤ 500 := by
  have hhw : c.halfWinSize = half := by
    unfold Config.halfWinSize
    omega
  have hd : 0 < c.fs / half := Nat.div_pos hfs hhalf
  have hwhole : half ≤ 500 / (c.fs / half) ↔ c.fs - c.fs % half ≤ 500 := by
    rw [Nat.le_div_iff_mul_le hd, ← Nat.mul_div_self_eq_mod_sub_self]
  have hindex := index_mul_lt hhalf hfs
  rw [lowBandExact_iff_bins hwin, hhw, ← hwhole]
  simp only [freq_lt_iff hwin hhalf]
  generalize 500 / (c.fs / half) = index at *
  constructor
  · intro h
    by_contra hlt
    exact absurd ((h index (not_le.mp hlt)).mpr hindex) (lt_irrefl _)
  · intro hall f hf
    have hlt : f < index := hf.trans_le hall
    refine iff_of_true hlt ((Nat.mul_le_mul_right c.fs hlt.le).trans_lt hindex)

/-- Windows of 20 ms at 8000 Hz. -/
noncomputable def speechConfig : Config ℝ := initConfig (fun _ => 0) 20 8000

theorem lowBandExact_iff_speech : (160 : ℕ) = 2 * 80 ∧ 1 ≤ 80 ∧ 80 ≤ speechConfig.fs ∧
    (LowBandExact speechConfig ↔ speechConfig.fs - speechConfig.fs % 80 ≤ 500) :=
  ⟨rfl, by decide, show 80 ≤ 8000 by decide,
    lowBandExact_iff speechConfig (show 160 = 2 * 80 from rfl) (by decide) (show 80 ≤ 8000 by decide)⟩

/-- The bins are 50 Hz apart, and bin 5, at 250 Hz, is left alone. -/
theorem not_lowBandExact_speech : ¬ ∀ (c : Config ℝ) (half : ℕ), c.winSize = 2 * half → 1 ≤ half →
    half ≤ c.fs → LowBandExact c := by
  intro h
  have hwin : speechConfig.winSize = 2 * 80 := rfl
  have hexact := h speechConfig 80 hwin (by decide) (show 80 ≤ 8000 by decide)
  have hbin := (lowBandExact_iff_bins hwin).mp hexact 5 (by decide)
  rw [freq_lt_iff hwin (by decide)] at hbin
  have hlow : 5 < 500 / (speechConfig.fs / speechConfig.halfWinSize) :=
    hbin.mpr (show 5 * 8000 < 1000 * 80 by decide)
  exact absurd hlow (show ¬ 5 < 500 / (8000 / (160 / 2)) by decide)

end AudioProcess
