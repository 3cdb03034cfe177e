import AudioProcess.Denoise.Windows

/-!
# The sizes that `blockThreshold_init` computes

* `initSizes`: the `int32_t` arithmetic of `blockThreshold_init`, undefined on overflow; `initSizes_eq`: in
  closed form; `blockThresholdInit_sizes`: they are the sizes of the handle;
* `wienerDivisor`: the integer divisor of `blockThreshold_wiener`;
* `Usable`: what the rest of the denoiser relies on;
* **`usable_iff`**.
-/

namespace AudioProcess

open CInt

/-- The fields of the handle, and the numbers of cells of `outbuf` and of a row of the matrices. -/
structure Sizes where
  winSize : ℤ
  halfWinSize : ℤ
  macroSize : ℤ
  outbufSize : ℤ
  rowSize : ℤ
  deriving DecidableEq

/-- `if (win_size & 0x01) win_size += 1`. -/
def evenSize (w : ℤ) : Option ℤ := if w % 2 = 1 then checked (w + 1) else some w

/-- The size computations of `blockThreshold_init`. -/
def initSizes (timeWin fs : ℤ) : Option Sizes := do
  let kHz ← div fs 1000
  let w ← checked (kHz * timeWin)
  let winSize ← evenSize w
  let halfWinSize ← div winSize 2
  let macroSize ← checked (halfWinSize * maxNblkTime)
  let outbufSize ← checked (macroSize + halfWinSize)
  let rowSize ← checked (halfWinSize + 1)
  return ⟨winSize, halfWinSize, macroSize, outbufSize, rowSize⟩

/-- `fs / half_win_size` in `blockThreshold_wiener`. -/
def wienerDivisor (fs halfWinSize : ℤ) : Option ℤ := div fs halfWinSize

/-- The sizes are defined; the window is even, not empty and within two samples of `fs * time_win / 1000`;
the macro-block is eight half windows; and the divisor of the Wiener filter is defined and not zero. -/
def Usable (timeWin fs : ℤ) : Prop :=
  ∃ s, initSizes timeWin fs = some s ∧
    s.winSize % 2 = 0 ∧ 2 ≤ s.winSize ∧ |(s.winSize : ℚ) - fs * timeWin / 1000| ≤ 2 ∧
    s.halfWinSize * 2 = s.winSize ∧ s.macroSize = 8 * s.halfWinSize ∧
    ∃ d, wienerDivisor fs s.halfWinSize = some d ∧ d ≠ 0

variable {timeWin fs : ℤ}

theorem evenSize_eq {w : ℤ} (h₀ : 0 ≤ w) (hmax : w ≤ intMax) : evenSize w = checked (2 * ((w + 1) / 2)) := by
  have hmin : intMin ≤ 0 := by decide
  unfold evenSize
  split_ifs with hodd
  · congr 1
    omega
  · rw [checked_of_range (by omega) (by omega)]
    congr 1
    omega

/-- With windows of `w` samples, rounded up to even, everything is defined while the nine half windows of
`outbuf` fit an `int`. -/
theorem initSizes_eq (ht : 0 < timeWin) (hfs : 0 < fs) : initSizes timeWin fs =
    let half := (fs / 1000 * timeWin + 1) / 2
    if 9 * half ≤ intMax then some ⟨2 * half, half, 8 * half, 9 * half, half + 1⟩ else none := by
  have hw : 0 ≤ fs / 1000 * timeWin := Int.mul_nonneg (Int.ediv_nonneg hfs.le (by decide)) ht.le
  unfold initSizes
  rw [div_of_pos hfs.le (by decide)]
  simp only [Option.bind_eq_bind, Option.bind_some, Option.pure_def]
  generalize fs / 1000 * timeWin = w at hw ⊢
  have hmin : intMin ≤ 0 := by decide
  have hmax : 1 ≤ intMax := by decide
  by_cases hlarge : intMax < w
  · rw [checked_of_gt hlarge, if_neg (by omega)]
    rfl
  rw [checked_of_range (by omega) (by omega), Option.bind_some]
  have hhalf : 0 ≤ (w + 1) / 2 := by omega
  rw [evenSize_eq hw (by omega)]
  generalize (w + 1) / 2 = half at *
  by_cases hround : intMax < 2 * half
  · rw [checked_of_gt hround, if_neg (by omega)]
    rfl
  rw [checked_of_range (by omega) (by omega), Option.bind_some, div_of_pos (by omega) (by decide),
    Option.bind_some, Int.mul_ediv_cancel_left _ (by decide)]
  have height : half * maxNblkTime = 8 * half := mul_comm _ _
  rw [height]
  by_cases hfit : 8 * half ≤ intMax
  · rw [checked_of_range (by omega) hfit, Option.bind_some, show 8 * half + half = 9 * half by ring]
    split_ifs with hfit'
    · rw [checked_of_range (by omega) hfit', Option.bind_some, checked_of_range (by omega) (by omega)]
      rfl
    · rw [checked_of_gt (by omega)]
      rfl
  · rw [checked_of_gt (by omega), if_neg (by omega)]
    rfl

/-- The sizes are those of the handle. -/
theorem blockThresholdInit_sizes {F : Type} [CFloat F] (junkWin : ℕ → F) (junk : Handle F) (ht : 0 < timeWin)
    (hfs : 0 < fs) : match initSizes timeWin fs with
      | none => blockThresholdInit true junkWin junk timeWin fs = .error .overflow
      | some s => ∃ c h, blockThresholdInit true junkWin junk timeWin fs = .ok (c, h) ∧ (c.fs : ℤ) = fs ∧
          (c.winSize : ℤ) = s.winSize ∧ (c.halfWinSize : ℤ) = s.halfWinSize ∧
          (c.macroSize : ℤ) = s.macroSize := by
  have hw : 0 ≤ fs / 1000 * timeWin := Int.mul_nonneg (Int.ediv_nonneg hfs.le (by decide)) ht.le
  have hwin : initWinSize timeWin fs = 2 * ((fs / 1000 * timeWin + 1) / 2) := by
    unfold initWinSize
    simp only
    split_ifs <;> omega
  rw [initSizes_eq ht hfs]
  generalize fs / 1000 * timeWin = w at hw hwin ⊢
  simp only
  have hcast : ((8 : ℕ) : ℤ) = 8 := rfl
  by_cases hfit : 9 * ((w + 1) / 2) ≤ intMax
  · rw [if_pos hfit]
    refine ⟨initConfig junkWin timeWin fs, initHandle (initConfig junkWin timeWin fs) junk, ?_,
      Int.toNat_of_nonneg hfs.le, ?_, ?_, ?_⟩
    · simp only [blockThresholdInit, maxNblkTime, hwin, hcast]
      rw [if_neg (by omega), if_neg (by omega), if_pos trivial]
    · show ((initWinSize timeWin fs).toNat : ℤ) = 2 * ((w + 1) / 2)
      omega
    · show (((initWinSize timeWin fs).toNat / 2 : ℕ) : ℤ) = (w + 1) / 2
      omega
    · show (((initWinSize timeWin fs).toNat / 2 * 8 : ℕ) : ℤ) = 8 * ((w + 1) / 2)
      omega
  · rw [if_neg hfit]
    simp only [blockThresholdInit, maxNblkTime, hwin, hcast]
    rw [if_neg (by omega), if_pos (by omega)]

/-- Two samples around `fs * time_win / 1000`. -/
theorem within_two_iff (win : ℤ) : |(win : ℚ) - fs * timeWin / 1000| ≤ 2 ↔
    -2000 ≤ 1000 * win - fs * timeWin ∧ 1000 * win - fs * timeWin ≤ 2000 := by
  have hcast : ((1000 * win - fs * timeWin : ℤ) : ℚ) = 1000 * ((win : ℚ) - fs * timeWin / 1000) := by
    push_cast
    ring
  have hlow : -2000 ≤ 1000 * win - fs * timeWin ↔ (-2000 : ℚ) ≤ ((1000 * win - fs * timeWin : ℤ) : ℚ) := by
    exact_mod_cast Iff.rfl
  have hhigh : 1000 * win - fs * timeWin ≤ 2000 ↔ ((1000 * win - fs * timeWin : ℤ) : ℚ) ≤ (2000 : ℚ) := by
    exact_mod_cast Iff.rfl
  rw [hlow, hhigh, hcast, abs_le]
  constructor
  · rintro ⟨h₁, h₂⟩
    constructor <;> linarith
  · rintro ⟨h₁, h₂⟩
    constructor <;> linarith

/-- **The configurations that `blockThreshold_init` makes usable**, of those it accepts: at least 1000 Hz,
nine half windows in an `int`, no more than two samples lost to the whole kilohertz (three, when the window
is rounded up), and a half window of at most one second. -/
theorem usable_iff (ht : 0 < timeWin) (hfs : 0 < fs) : Usable timeWin fs ↔
    1000 ≤ fs ∧ 9 * ((fs / 1000 * timeWin + 1) / 2) ≤ intMax ∧
      fs % 1000 * timeWin ≤ 2000 + 1000 * (fs / 1000 * timeWin % 2) ∧
      (fs / 1000 * timeWin + 1) / 2 ≤ fs := by
  have hkHz : 1000 ≤ fs ↔ 1 ≤ fs / 1000 * timeWin := by
    constructor
    · intro h
      exact Int.mul_pos (by omega) ht
    · intro h
      have := pos_of_mul_pos_left (Int.lt_of_lt_of_le Int.one_pos h) ht.le
      omega
  have hw : 0 ≤ fs / 1000 * timeWin := Int.mul_nonneg (Int.ediv_nonneg hfs.le (by decide)) ht.le
  have hr : 0 ≤ fs % 1000 * timeWin := Int.mul_nonneg (Int.emod_nonneg fs (by decide)) ht.le
  have hprod : fs * timeWin = 1000 * (fs / 1000 * timeWin) + fs % 1000 * timeWin := by
    conv_lhs => rw [← Int.mul_ediv_add_emod fs 1000]
    ring
  unfold Usable
  rw [initSizes_eq ht hfs]
  simp only [within_two_iff, hprod, hkHz, wienerDivisor]
  generalize fs / 1000 * timeWin = w at *
  generalize fs % 1000 * timeWin = r at *
  generalize hhalf : (w + 1) / 2 = half
  constructor
  · rintro ⟨s, hs, -, hwin, ⟨hlow, -⟩, -, -, d, hd, hd₀⟩
    split_ifs at hs with hfit
    obtain rfl := Option.some.inj hs
    simp only at hwin hlow hd
    have hpos : 0 < half := by omega
    obtain rfl := Option.some.inj ((div_of_pos hfs.le hpos).symm.trans hd)
    refine ⟨by omega, hfit, by omega, ?_⟩
    by_contra hlt
    exact hd₀ (Int.ediv_eq_zero_of_lt hfs.le (not_le.mp hlt))
  · rintro ⟨hone, hfit, hloss, hle⟩
    have hpos : 0 < half := by omega
    rw [if_pos hfit]
    have hdiv : 1 ≤ fs / half := Int.le_ediv_of_mul_le hpos (by omega)
    refine ⟨_, rfl, ?_, ?_, ⟨?_, ?_⟩, mul_comm half 2, rfl, fs / half, div_of_pos hfs.le hpos, by omega⟩ <;>
      simp only <;> omega

theorem usable_iff_speech : Usable 20 16000 ↔
    (1000 : ℤ) ≤ 16000 ∧ 9 * (((16000 : ℤ) / 1000 * 20 + 1) / 2) ≤ intMax ∧
      (16000 : ℤ) % 1000 * 20 ≤ 2000 + 1000 * (16000 / 1000 * 20 % 2) ∧
      ((16000 : ℤ) / 1000 * 20 + 1) / 2 ≤ 16000 :=
  usable_iff (by decide) (by decide)

/-- At 44100 Hz, windows of 50 ms: 2200 samples where 2205 are asked for. -/
theorem not_usable_cd : ¬ ∀ timeWin fs : ℤ, 0 < timeWin → timeWin ≤ intMax → 0 < fs → fs ≤ intMax →
    Usable timeWin fs := by
  intro h
  obtain ⟨s, hs, -, -, hclose, -⟩ := h 50 44100 (by decide) (by decide) (by decide) (by decide)
  have hsizes : initSizes 50 44100 = some ⟨2200, 1100, 8800, 9900, 1101⟩ := by decide
  obtain rfl := Option.some.inj (hsizes.symm.trans hs)
  have hlow := ((within_two_iff 2200).mp hclose).1
  exact absurd hlow (by decide)

end AudioProcess
