import AudioProcess.Denoise.Reference
import AudioProcess.Denoise.Transforms
import Mathlib.Algebra.BigOperators.Field

/-!
# The energy of the denoised stream

The denoiser with the FFT library's own transforms, in exact real arithmetic.

* `sum_normSq_dft`, **`synthesis_energy_le`**: the energy of a frame, from its bins;
* `coreCoef_le`: the block processing makes no coefficient larger;
* **`frame_energy_le`**: a frame of the output has at most the energy of its windowed segment;
* **`stream_energy_le`**: a run's output has at most twice the energy of its input.
-/

namespace AudioProcess

open CFloat CLoop Complex Dft Finset Mem OverlapAdd Runs

section Transforms

variable {n : ℕ}

/-! ## Parseval -/

/-- The energy of the samples that belong to the bins. -/
theorem sum_normSq_dft {inverse : Bool} {N : ℕ} (hN : 0 < N) (x : ℕ → ℂ) :
    ∑ k ∈ range N, normSq (dft (fftRoot inverse N) N x k) = N * ∑ j ∈ range N, normSq (x j) := by
  have hroot := isPrimitiveRoot_fftRoot inverse hN
  have hparseval := sum_dft_mul_dft_inv hroot x fun j => starRingEnd ℂ (x j)
  simp only [← conj_dft (conj_fftRoot inverse hN), mul_conj] at hparseval
  exact_mod_cast hparseval

theorem normSq_hermitian_le {bins bins' : ℕ → Cpx ℝ}
    (hle : ∀ k ≤ n, normSq (bins' k).toC ≤ normSq (bins k).toC) {x : ℕ → ℝ} (hn : 0 < n)
    (hbins : ∀ k ≤ n, (bins k).toC = realBins n x k) {k : ℕ} (hk : k < 2 * n) :
    normSq (hermitian n bins' k) ≤ normSq (realBins n x k) := by
  have hre : ∀ z : Cpx ℝ, normSq (z.r : ℂ) ≤ normSq z.toC := fun z => by
    rw [normSq_ofReal, normSq_apply]
    exact le_add_of_nonneg_right (mul_self_nonneg _)
  by_cases hends : k = 0 ∨ k = n
  · rw [hermitian, if_pos hends, ← hbins k (by omega)]
    exact (hre _).trans (hle k (by omega))
  · rcases Nat.lt_or_gt_of_ne (not_or.mp hends).2 with hlt | hgt
    · rw [hermitian_of_lt bins' (by omega) hlt, ← hbins k hlt.le]
      exact hle k hlt.le
    · obtain ⟨j, rfl⟩ := Nat.exists_eq_add_of_le' hgt.le
      have hmirror := hle (n - j) (Nat.sub_le n j)
      rw [hbins _ (Nat.sub_le n j), show n - j = 2 * n - (j + n) by omega, ← conj_realBins x hn hk.le, normSq_conj]
        at hmirror
      rw [hermitian_of_gt bins' (by omega) (by omega), normSq_conj, show n - j = 2 * n - (j + n) by omega]
      exact hmirror

end Transforms

section Frames

variable {c : Config ℝ} {forward backward : KissFftrState ℝ}

/-- **Bins that are not larger make a frame that is not.** -/
theorem synthesis_energy_le (hwin : c.winSize = 2 * c.halfWinSize) (hn : 0 < c.halfWinSize)
    (hforward : RealReady c.halfWinSize false forward) (hbackward : RealReady c.halfWinSize true backward)
    (v : Fin c.winSize → ℝ) {row : ℕ → Cpx ℝ}
    (hle : ∀ f : Fin (c.winSize / 2 + 1),
      normSq (row f).toC ≤ normSq ((kissOf c.winSize forward backward).fftr v f).toC) :
    ∑ j ∈ range c.winSize, synthesis c (kissOf c.winSize forward backward) row j ^ 2 ≤ ∑ i, v i ^ 2 := by
  let x : ℕ → ℝ := writeRow v fun _ => ofRat 0
  let bins : ℕ → Cpx ℝ := writeRow ((kissOf c.winSize forward backward).fftr v) fun _ => ⟨ofRat 0, ofRat 0⟩
  let bins' : ℕ → Cpx ℝ := writeRow (fun f : Fin (c.winSize / 2 + 1) => row f) fun _ => ⟨ofRat 0, ofRat 0⟩
  have hN : (0 : ℝ) < c.winSize := by exact_mod_cast (by omega : 0 < c.winSize)
  have hbins : ∀ k ≤ c.halfWinSize, (bins k).toC = realBins c.halfWinSize x k := fun k hk => by
    simp only [bins, writeRow, dif_pos (show k < c.winSize / 2 + 1 by omega)]
    exact fftr_kissOf hwin hn hforward v ⟨k, by omega⟩
  have hbins' : ∀ k ≤ c.halfWinSize, normSq (bins' k).toC ≤ normSq (bins k).toC := fun k hk => by
    simp only [bins, bins', writeRow, dif_pos (show k < c.winSize / 2 + 1 by omega)]
    exact hle ⟨k, by omega⟩
  have hx : ∑ j ∈ range c.winSize, normSq (x j : ℂ) = ∑ i, v i ^ 2 := by
    rw [← Fin.sum_univ_eq_sum_range fun j => normSq (x j : ℂ)]
    refine Fintype.sum_congr _ _ fun i => ?_
    simp only [x, writeRow, dif_pos i.2, normSq_ofReal, sq]
  have hsamples : ∑ j ∈ range c.winSize, normSq (realSamples c.halfWinSize bins' j) ≤
      (c.winSize : ℝ) * (c.winSize * ∑ i, v i ^ 2) := by
    calc ∑ j ∈ range c.winSize, normSq (realSamples c.halfWinSize bins' j)
        = c.winSize * ∑ k ∈ range c.winSize, normSq (hermitian c.halfWinSize bins' k) := by
          rw [hwin]
          exact sum_normSq_dft (by omega) _
      _ ≤ c.winSize * ∑ k ∈ range c.winSize, normSq (realBins c.halfWinSize x k) := by
          refine mul_le_mul_of_nonneg_left (sum_le_sum fun k hk => ?_) hN.le
          exact normSq_hermitian_le hbins' hn hbins (hwin ▸ mem_range.mp hk)
      _ = c.winSize * (c.winSize * ∑ i, v i ^ 2) := by
          rw [← hx, hwin]
          exact congrArg _ (sum_normSq_dft (by omega) _)
  have hframe : ∀ j ∈ range c.winSize, synthesis c (kissOf c.winSize forward backward) row j ^ 2 =
      normSq (realSamples c.halfWinSize bins' j) / c.winSize ^ 2 := fun j hj => by
    rw [synthesis, dif_pos (mem_range.mp hj), ofNat_real, div_pow, sq (Kiss.fftri _ _ _), ← normSq_ofReal,
      fftri_kissOf hwin hn hbackward]
  rw [sum_congr rfl hframe, ← sum_div, div_le_iff₀ (by positivity)]
  calc ∑ j ∈ range c.winSize, normSq (realSamples c.halfWinSize bins' j)
      ≤ (c.winSize : ℝ) * (c.winSize * ∑ i, v i ^ 2) := hsamples
    _ = (∑ i, v i ^ 2) * c.winSize ^ 2 := by ring

/-! ## The block processing -/

theorem normSq_scale (z : Cpx ℝ) (g : ℝ) : normSq (z.scale g).toC = g ^ 2 * normSq z.toC := by
  simp only [normSq_apply, Cpx.toC_re, Cpx.toC_im, Cpx.scale]
  ring

theorem gain_nonneg (a : ℝ) (z : Cpx ℝ) (f : ℕ) : 0 ≤ referenceGain c a z * lowBand c f := by
  refine mul_nonneg (div_nonneg (by positivity) (by positivity)) ?_
  unfold lowBand
  split_ifs <;> norm_num

/-- **The block processing makes no coefficient larger.** -/
theorem coreCoef_le (hσ : 0 < c.sigmaHanningNoise) (hwin : 0 < c.winSize) (coef : ℕ → ℕ → Cpx ℝ) (t f : ℕ) :
    normSq (coreCoef c coef t f).toC ≤ normSq (coef t f).toC := by
  unfold coreCoef
  split_ifs
  · rw [wienerBin_real, normSq_scale]
    have hgain₀ := gain_nonneg (c := c) (factor c coef t f) (coef t f) f
    have hgain₁ := gain_lt_one hσ hwin (factor c coef t f) (coef t f) f
    have hsq := pow_le_one₀ (n := 2) hgain₀ hgain₁.le
    exact mul_le_of_le_one_left (normSq_nonneg _) hsq
  · exact le_rfl

/-- **A frame has at most the energy of its windowed segment.** -/
theorem frame_energy_le (hwin : c.winSize = 2 * c.halfWinSize) (hn : 0 < c.halfWinSize)
    (hσ : 0 < c.sigmaHanningNoise) (hforward : RealReady c.halfWinSize false forward)
    (hbackward : RealReady c.halfWinSize true backward) (x : ℕ → ℕ → ℝ) (junk : ℕ → ℕ → Cpx ℝ) (t : ℕ) :
    ∑ j ∈ range c.winSize, outFrame (kissOf c.winSize forward backward) (coreCoef c) x junk t j ^ 2 ≤
      ∑ i, windowed c x t i ^ 2 := by
  refine synthesis_energy_le hwin hn hforward hbackward (windowed c x t) fun f => ?_
  refine (coreCoef_le hσ (by omega) _ _ _).trans ?_
  rw [group, writeRow, dif_pos f.2, Nat.div_add_mod]
  exact le_rfl

end Frames

/-! ## Runs -/

section Stream

variable {c : Config ℝ} {x : ℕ → ℕ → ℝ}

theorem hann_nonneg (n i : ℕ) : (0 : ℝ) ≤ hann n i := by
  have hcos := Real.cos_le_one (2 * Real.pi * i / (n - 1))
  simp only [hann, ofRat_real, ofNat_real, cos_real, pi_real]
  push_cast
  linarith

/-- The halves of the window share one. -/
theorem window_sq_add_le {junkWin : ℕ → ℝ} (hwin : c.winSize = 2 * c.halfWinSize)
    (hhann : c.winHanning = makeHanningWindow junkWin c.winSize) {i : ℕ} (hi : i < c.halfWinSize) :
    c.winHanning i ^ 2 + c.winHanning (c.halfWinSize + i) ^ 2 ≤ 1 := by
  have hlow : c.winHanning i = hann (2 * c.halfWinSize) i := by
    rw [hhann, makeHanningWindow_apply hwin junkWin (by omega), min_eq_left (by omega), hwin]
  have hhigh : c.winHanning (c.halfWinSize + i) = hann (2 * c.halfWinSize) (c.halfWinSize - 1 - i) := by
    rw [hhann, makeHanningWindow_apply hwin junkWin (by omega), min_eq_right (by omega), hwin,
      show 2 * c.halfWinSize - 1 - (c.halfWinSize + i) = c.halfWinSize - 1 - i by omega]
  have hsum := hann_add_lt_one hi
  have h₀ := hann_nonneg (2 * c.halfWinSize) i
  have h₁ := hann_nonneg (2 * c.halfWinSize) (c.halfWinSize - 1 - i)
  rw [hlow, hhigh]
  nlinarith

/-- The energy of a hop. -/
noncomputable def hopEnergy (half : ℕ) (x : ℕ → ℕ → ℝ) (t : ℕ) : ℝ := ∑ i ∈ range half, x t i ^ 2

theorem sum_windowed_sq (hwin : c.winSize = 2 * c.halfWinSize) (t : ℕ) : ∑ i, windowed c x t i ^ 2 =
    ∑ i ∈ range c.halfWinSize,
      (previous x t i ^ 2 * c.winHanning i ^ 2 + x t i ^ 2 * c.winHanning (c.halfWinSize + i) ^ 2) := by
  let g (i : ℕ) : ℝ :=
    ((if i < c.halfWinSize then previous x t i else x t (i - c.halfWinSize)) * c.winHanning i) ^ 2
  have hg : ∑ i : Fin c.winSize, windowed c x t i ^ 2 = ∑ i ∈ range c.winSize, g i := Fin.sum_univ_eq_sum_range g _
  rw [hg, hwin, Nat.two_mul, sum_range_add, ← sum_add_distrib]
  refine sum_congr rfl fun i hi => ?_
  simp only [g, if_pos (mem_range.mp hi), if_neg (show ¬ c.halfWinSize + i < c.halfWinSize by omega),
    Nat.add_sub_cancel_left, mul_pow]

/-- The windowed segments of the first hops have at most the energy of the hops. -/
theorem windowed_energy_le {junkWin : ℕ → ℝ} (hwin : c.winSize = 2 * c.halfWinSize)
    (hhann : c.winHanning = makeHanningWindow junkWin c.winSize) (n : ℕ) :
    ∑ t ∈ range n, ∑ i, windowed c x t i ^ 2 ≤ ∑ t ∈ range n, hopEnergy c.halfWinSize x t := by
  have hpast : ∑ t ∈ range n, ∑ i ∈ range c.halfWinSize, previous x t i ^ 2 * c.winHanning i ^ 2 ≤
      ∑ t ∈ range n, ∑ i ∈ range c.halfWinSize, x t i ^ 2 * c.winHanning i ^ 2 := by
    cases n with
    | zero => simp
    | succ n =>
        have hlast : 0 ≤ ∑ i ∈ range c.halfWinSize, x n i ^ 2 * c.winHanning i ^ 2 :=
          sum_nonneg fun i _ => by positivity
        rw [sum_range_succ', sum_range_succ]
        simpa [previous] using hlast
  calc ∑ t ∈ range n, ∑ i, windowed c x t i ^ 2
      = ∑ t ∈ range n, ∑ i ∈ range c.halfWinSize, previous x t i ^ 2 * c.winHanning i ^ 2 +
          ∑ t ∈ range n, ∑ i ∈ range c.halfWinSize, x t i ^ 2 * c.winHanning (c.halfWinSize + i) ^ 2 := by
        simp only [sum_windowed_sq hwin, sum_add_distrib]
    _ ≤ ∑ t ∈ range n, ∑ i ∈ range c.halfWinSize, x t i ^ 2 * c.winHanning i ^ 2 +
          ∑ t ∈ range n, ∑ i ∈ range c.halfWinSize, x t i ^ 2 * c.winHanning (c.halfWinSize + i) ^ 2 :=
        add_le_add_left hpast _
    _ = ∑ t ∈ range n, ∑ i ∈ range c.halfWinSize,
          x t i ^ 2 * (c.winHanning i ^ 2 + c.winHanning (c.halfWinSize + i) ^ 2) := by
        simp only [mul_add, sum_add_distrib]
    _ ≤ ∑ t ∈ range n, hopEnergy c.halfWinSize x t := by
        refine sum_le_sum fun t _ => sum_le_sum fun i hi => ?_
        exact mul_le_of_le_one_right (sq_nonneg _) (window_sq_add_le hwin hhann (mem_range.mp hi))

/-- The frames of a run, overlapped. -/
theorem overlap_energy_le {junkWin : ℕ → ℝ} (hwin : c.winSize = 2 * c.halfWinSize)
    (hhann : c.winHanning = makeHanningWindow junkWin c.winSize) (hσ : 0 < c.sigmaHanningNoise)
    {forward backward : KissFftrState ℝ} (hforward : RealReady c.halfWinSize false forward)
    (hbackward : RealReady c.halfWinSize true backward) (junk : ℕ → ℕ → Cpx ℝ) (n : ℕ) :
    ∑ p ∈ range (c.halfWinSize * n), overlapAdd c.halfWinSize
        (outFrame (kissOf c.winSize forward backward) (coreCoef c) x junk) n p ^ 2 ≤
      2 * ∑ t ∈ range n, hopEnergy c.halfWinSize x t := by
  rcases Nat.eq_zero_or_pos c.halfWinSize with hzero | hn
  · rw [hzero, Nat.zero_mul]
    simp [hopEnergy]
  · refine (sum_sq_overlapAdd_le c.halfWinSize _ n).trans (mul_le_mul_of_nonneg_left ?_ zero_le_two)
    refine (sum_le_sum fun t _ => ?_).trans (windowed_energy_le hwin hhann n)
    rw [← hwin]
    exact frame_energy_le hwin hn hσ hforward hbackward x junk t

/-- **The denoiser is stable.** In exact real arithmetic, with the transforms of the FFT library in any states that
`kiss_fftr_alloc` makes: from a handle of `blockThreshold_init`, whatever the calls are, if they have room for the
output, the samples that they hand out have together at most twice the energy of the samples that they accepted. -/
theorem stream_energy_le {mallocs : Bool} {junkWin : ℕ → ℝ} {junk h : Handle ℝ} {timeWin fs : ℤ} {c : Config ℝ}
    (hinit : blockThresholdInit mallocs junkWin junk timeWin fs = .ok (c, h))
    {forward backward : KissFftrState ℝ} (hforward : RealReady c.halfWinSize false forward)
    (hbackward : RealReady c.halfWinSize true backward) (calls : List (FrameCall ℝ))
    (hout : ∀ a ∈ calls, (c.macroSize : ℤ) ≤ a.outLen) :
    ((final (stream c (kissOf c.winSize forward backward)) (h, []) calls).2.map fun s => s ^ 2).sum ≤
      2 * ∑ t ∈ range (accepted (hop c) calls).length, hopEnergy c.halfWinSize (hops (hop c) calls) t := by
  obtain ⟨htime, hfs, heq⟩ := init_eq hinit
  obtain ⟨hc, hh⟩ := Prod.mk.inj heq
  have hwin : c.winSize = 2 * c.halfWinSize := hc ▸ initConfig_winSize junkWin htime hfs
  have hhann : c.winHanning = makeHanningWindow junkWin c.winSize := by rw [hc]; rfl
  have hσ : 0 < c.sigmaHanningNoise := by rw [hc]; exact sigmaHanning_pos
  have hfresh : Fresh c h := by rw [hh, ← hc]; exact fresh_initHandle c junk
  have hrun := (RunInv.of_fresh (floatCaller c (kissOf c.winSize forward backward) (blockThresholdCore c))
    (blockProc_core c) hwin hfresh hout h.stftCoef).2
  let n := (accepted (hop c) calls).length
  let x := hops (hop c) calls
  have hlist : ((final (stream c (kissOf c.winSize forward backward)) (h, []) calls).2.map fun s => s ^ 2).sum =
      ∑ p ∈ range (c.halfWinSize * (maxNblkTime * (n / maxNblkTime))), overlapAdd c.halfWinSize
        (outFrame (kissOf c.winSize forward backward) (coreCoef c) x h.stftCoef)
          (maxNblkTime * (n / maxNblkTime)) p ^ 2 := by
    refine (congrArg (fun l : List ℝ => (l.map fun s => s ^ 2).sum) hrun.emitted).trans ?_
    rw [List.map_map]
    rfl
  rw [hlist]
  refine (overlap_energy_le hwin hhann hσ hforward hbackward h.stftCoef _).trans ?_
  refine mul_le_mul_of_nonneg_left (sum_le_sum_of_subset_of_nonneg ?_ fun t _ _ => ?_) zero_le_two
  · exact range_subset_range.mpr (Nat.mul_div_le n maxNblkTime)
  · exact sum_nonneg fun i _ => sq_nonneg _

end Stream

/-- Windows of two samples, and a stream of ones. -/
theorem stream_energy_le_pair : ∃ forward backward,
    ((final (stream pairConfig (kissOf pairConfig.winSize forward backward)) (pairHandle, [])
        (List.replicate 8 (pairCall 1))).2.map fun s => s ^ 2).sum ≤
      2 * ∑ t ∈ range (accepted (hop pairConfig) (List.replicate 8 (pairCall 1))).length,
        hopEnergy pairConfig.halfWinSize (hops (hop pairConfig) (List.replicate 8 (pairCall 1))) t := by
  obtain ⟨forward, hforward⟩ := exists_ready (show 0 < 1 by decide) false
  obtain ⟨backward, hbackward⟩ := exists_ready (show 0 < 1 by decide) true
  exact ⟨forward, backward, stream_energy_le pairHandle_init hforward hbackward (List.replicate 8 (pairCall 1))
    fun a ha => by rw [List.eq_of_mem_replicate ha]; decide⟩

end AudioProcess
