import AudioProcess.Denoise.Stream
import Mathlib.Analysis.Complex.Trigonometric
import Mathlib.Tactic.Linarith

/-!
# Reconstruction with no attenuation

Over the reals, with an inverse transform that undoes the transform up to `win_size`, and block processing
that leaves the coefficients as they are. The window of `make_hanning_window` is symmetric with denominator
`win_size - 1`, made for the odd window that the handle's declaration mentions; for the even one of
`blockThreshold_init` its halves add up to less than one everywhere.

* **`hann_add_lt_one`**: the window's two halves;
* `sample_unattenuated`: an output sample is the delayed input sample times the sum of the window's halves;
* **`reconstruction_iff`**: the output is the delayed input exactly when that is silent.
-/

namespace AudioProcess

open CFloat CLoop Mem OverlapAdd Runs

/-! ## The window -/

/-- **The halves of an even window add up to less than one.** -/
theorem hann_add_lt_one {half i : ℕ} (hi : i < half) :
    (hann (2 * half) i + hann (2 * half) (half - 1 - i) : ℝ) < 1 := by
  have hD : (0 : ℝ) < 2 * half - 1 := by
    have : (1 : ℝ) ≤ half := by exact_mod_cast (by omega : 1 ≤ half)
    linarith
  have hsub : ((half - 1 - i : ℕ) : ℝ) = half - 1 - i := by
    rw [Nat.sub_sub, Nat.cast_sub (by omega)]
    push_cast
    ring
  let A : ℝ := Real.pi * (half - 1) / (2 * half - 1)
  let B : ℝ := Real.pi * (2 * i - half + 1) / (2 * half - 1)
  let α : ℝ := 2 * Real.pi * i / (2 * half - 1)
  let β : ℝ := 2 * Real.pi * (half - 1 - i) / (2 * half - 1)
  have hmid : (α + β) / 2 = A := by simp only [α, β, A]; ring
  have hdiff : (α - β) / 2 = B := by simp only [α, β, B]; ring
  have hcos : Real.cos α + Real.cos β = 2 * Real.cos A * Real.cos B := by
    rw [Real.cos_add_cos, hmid, hdiff]
  have hhalf : (i : ℝ) + 1 ≤ half := by exact_mod_cast hi
  have hi0 : (0 : ℝ) ≤ i := Nat.cast_nonneg i
  have hA : 0 < Real.cos A := Real.cos_pos_of_mem_Ioo (by
    constructor
    · rw [lt_div_iff₀ hD]; nlinarith [Real.pi_pos]
    · rw [div_lt_iff₀ hD]; nlinarith [Real.pi_pos])
  have hB : 0 < Real.cos B := Real.cos_pos_of_mem_Ioo (by
    constructor
    · rw [lt_div_iff₀ hD]; nlinarith [Real.pi_pos]
    · rw [div_lt_iff₀ hD]; nlinarith [Real.pi_pos])
  have hprod := mul_pos hA hB
  have hsum : (hann (2 * half) i + hann (2 * half) (half - 1 - i) : ℝ) = 1 - Real.cos A * Real.cos B := by
    simp only [hann, ofRat_real, ofNat_real, cos_real, pi_real, hsub]
    push_cast
    linarith
  rw [hsum]
  linarith

variable {c : Config ℝ} {kiss : Kiss ℝ c.winSize} {core : Handle ℝ → Handle ℝ} {x : ℕ → ℕ → ℝ}
  {junk : ℕ → ℕ → Cpx ℝ}

/-- The sum of the window's halves at sample `j` of a hop. -/
noncomputable def overlapGain (c : Config ℝ) (j : ℕ) : ℝ := c.winHanning j + c.winHanning (j + c.halfWinSize)

theorem overlapGain_ne_one {junkWin : ℕ → ℝ} (hwin : c.winSize = 2 * c.halfWinSize)
    (hhann : c.winHanning = makeHanningWindow junkWin c.winSize) {j : ℕ} (hj : j < c.halfWinSize) :
    overlapGain c j ≠ 1 := by
  have hlt := hann_add_lt_one hj
  rw [overlapGain, hhann, makeHanningWindow_apply hwin junkWin (by omega),
    makeHanningWindow_apply hwin junkWin (by omega), min_eq_left (by omega), min_eq_right (by omega), hwin,
    show 2 * c.halfWinSize - 1 - (j + c.halfWinSize) = c.halfWinSize - 1 - j by omega]
  exact hlt.ne

/-! ## The stream -/

/-- The inverse transform undoes the transform, times `win_size`. -/
def Inverts {n : ℕ} (kiss : Kiss ℝ n) : Prop := ∀ v j, kiss.fftri (kiss.fftr v) j = n * v j

/-- An unattenuated frame is the windowed segment. -/
theorem outFrame_unattenuated (hkiss : Inverts kiss) (t : ℕ) {j : ℕ} (hj : j < c.winSize) :
    outFrame kiss (fun coef => coef) x junk t j = windowed c x t ⟨j, hj⟩ := by
  have hrow : (fun f : Fin (c.winSize / 2 + 1) =>
      group kiss x junk (t / maxNblkTime) (t % maxNblkTime) f) = spectrum c kiss x t := by
    funext f
    rw [group, writeRow, dif_pos f.2, Nat.div_add_mod]
  have hw : (c.winSize : ℝ) ≠ 0 := by exact_mod_cast (by omega : c.winSize ≠ 0)
  rw [outFrame, synthesis, dif_pos hj, hrow, spectrum, hkiss, ofNat_real]
  exact mul_div_cancel_left₀ _ hw

/-- The stream `x`, delayed by one hop. -/
noncomputable def delayed (half : ℕ) (x : ℕ → ℕ → ℝ) (p : ℕ) : ℝ :=
  if p < half then 0 else x (p / half - 1) (p % half)

/-- **An unattenuated output sample.** -/
theorem sample_unattenuated (hwin : c.winSize = 2 * c.halfWinSize) (hkiss : Inverts kiss) {n p : ℕ}
    (hp : p < c.halfWinSize * n) :
    overlapAdd c.halfWinSize (outFrame kiss (fun coef => coef) x junk) n p =
      delayed c.halfWinSize x p * overlapGain c (p % c.halfWinSize) := by
  have hhalf : 0 < c.halfWinSize := Nat.pos_of_ne_zero fun h0 => by
    rw [h0, Nat.zero_mul] at hp
    exact Nat.not_lt_zero p hp
  have hj : p % c.halfWinSize < c.halfWinSize := Nat.mod_lt p hhalf
  have hs : p / c.halfWinSize < n := Nat.div_lt_of_lt_mul hp
  have hdecomp := Nat.div_add_mod p c.halfWinSize
  generalize p / c.halfWinSize = s at hs hdecomp
  generalize hjj : p % c.halfWinSize = j at hj hdecomp
  subst hdecomp
  cases s with
  | zero =>
      rw [Nat.mul_zero, Nat.zero_add, overlapAdd_first (by omega) hj,
        outFrame_unattenuated hkiss 0 (by omega), windowed, if_pos hj, delayed, if_pos hj]
      simp [previous]
  | succ s =>
      have hdiv : (c.halfWinSize * (s + 1) + j) / c.halfWinSize = s + 1 := by
        rw [Nat.mul_add_div hhalf, Nat.div_eq_of_lt hj, Nat.add_zero]
      have hge : ¬ c.halfWinSize * (s + 1) + j < c.halfWinSize := by
        rw [Nat.mul_succ]
        omega
      rw [overlapAdd_two hs hj, outFrame_unattenuated hkiss s (show c.halfWinSize + j < _ by omega),
        outFrame_unattenuated hkiss (s + 1) (show j < _ by omega), windowed, windowed,
        if_neg (by simp), if_pos hj, delayed, if_neg hge, hdiv, hjj]
      simp only [Nat.add_sub_cancel_left, Nat.add_sub_cancel, previous, ofRat_real, Rat.cast_zero, zero_add,
        overlapGain, Nat.add_comm j]
      ring

/-- The output of a run without attenuation. -/
theorem emitted_unattenuated {h : Handle ℝ} {calls : List (FrameCall ℝ)}
    (hcore : BlockProc c core fun coef => coef) (hwin : c.winSize = 2 * c.halfWinSize)
    (hkiss : Inverts kiss) (hfresh : Fresh c h) (hout : ∀ a ∈ calls, (c.macroSize : ℤ) ≤ a.outLen) :
    (final (streamWith c kiss core) (h, []) calls).2 =
      (List.range (c.halfWinSize * (maxNblkTime * ((accepted (hop c) calls).length / maxNblkTime)))).map fun p =>
        delayed c.halfWinSize (hops (hop c) calls) p * overlapGain c (p % c.halfWinSize) := by
  have hrun := (RunInv.of_fresh (floatCaller c kiss core) hcore hwin hfresh hout h.stftCoef).2
  refine hrun.emitted.trans (List.map_congr_left fun p hp => ?_)
  exact sample_unattenuated hwin hkiss (List.mem_range.mp hp)

/-- The delayed stream is silent on `n` hops when the first `n - 1` hops are. -/
theorem delayed_eq_zero_iff {half n : ℕ} : (∀ p < half * n, delayed half x p = 0) ↔
    ∀ k j, k + 1 < n → j < half → x k j = 0 := by
  constructor
  · intro h k j hk hj
    have hlt : half * (k + 1) + j < half * n := by
      have := Nat.mul_le_mul_left half (Nat.succ_le_of_lt hk)
      rw [Nat.mul_succ] at this
      omega
    have hge : ¬ half * (k + 1) + j < half := by
      rw [Nat.mul_succ]
      omega
    have hzero := h _ hlt
    rwa [delayed, if_neg hge, Nat.mul_add_div (by omega), Nat.div_eq_of_lt hj, Nat.mul_add_mod,
      Nat.mod_eq_of_lt hj, Nat.add_zero, Nat.add_sub_cancel] at hzero
  · intro h p hp
    unfold delayed
    split_ifs with hlow
    · rfl
    · have hhalf : 0 < half := Nat.pos_of_ne_zero fun h0 => by
        rw [h0, Nat.zero_mul] at hp
        exact Nat.not_lt_zero p hp
      have hs : p / half < n := Nat.div_lt_of_lt_mul hp
      have hpos : 0 < p / half := Nat.div_pos (Nat.le_of_not_lt hlow) hhalf
      exact h _ _ (by omega) (Nat.mod_lt p hhalf)

/-- **No attenuation does not give the input back.** For every even window of `make_hanning_window`, no two
cells half a window apart add up to one; and the output of a run without attenuation is the input delayed by
one hop exactly when all hops of the finished macro-blocks but the last are silent. -/
theorem reconstruction_iff (c : Config ℝ) (kiss : Kiss ℝ c.winSize) (core : Handle ℝ → Handle ℝ)
    (h : Handle ℝ) (calls : List (FrameCall ℝ)) {junkWin : ℕ → ℝ}
    (hwin : c.winSize = 2 * c.halfWinSize) (hhann : c.winHanning = makeHanningWindow junkWin c.winSize)
    (hcore : BlockProc c core fun coef => coef) (hkiss : Inverts kiss) (hfresh : Fresh c h)
    (hout : ∀ a ∈ calls, (c.macroSize : ℤ) ≤ a.outLen) :
    (∀ i < c.halfWinSize, c.winHanning i + c.winHanning (i + c.halfWinSize) ≠ 1) ∧
    ((final (streamWith c kiss core) (h, []) calls).2 =
        (List.range (c.halfWinSize * (maxNblkTime * ((accepted (hop c) calls).length / maxNblkTime)))).map
          (delayed c.halfWinSize (hops (hop c) calls)) ↔
      ∀ k j, k + 1 < maxNblkTime * ((accepted (hop c) calls).length / maxNblkTime) → j < c.halfWinSize →
        hops (hop c) calls k j = 0) := by
  refine ⟨fun i hi => overlapGain_ne_one hwin hhann hi, ?_⟩
  rw [emitted_unattenuated hcore hwin hkiss hfresh hout, List.map_inj_left, ← delayed_eq_zero_iff]
  refine forall_congr' fun p => ?_
  rw [List.mem_range]
  refine imp_congr_right fun hp => ?_
  have hhalf : 0 < c.halfWinSize := Nat.pos_of_ne_zero fun h0 => by
    rw [h0, Nat.zero_mul] at hp
    exact Nat.not_lt_zero p hp
  rw [mul_right_eq_self₀, or_iff_right (overlapGain_ne_one hwin hhann (Nat.mod_lt p hhalf))]

theorem inverts_pairKiss : Inverts pairKiss := by
  intro v j
  fin_cases j
  · simp [pairKiss]
    ring
  · simp [pairKiss]
    ring

theorem blockProc_id (c : Config ℝ) : BlockProc c id fun coef => coef :=
  ⟨fun _ => rfl, fun _ => rfl, fun _ => rfl, fun hw => hw⟩

/-- Silence comes back. -/
theorem reconstruction_iff_pair :
    (final (streamWith pairConfig pairKiss id) (pairHandle, []) (List.replicate 8 (pairCall 0))).2 =
      (List.range 8).map (delayed 1 (hops (hop pairConfig) (List.replicate 8 (pairCall 0)))) := by
  refine (reconstruction_iff pairConfig pairKiss id pairHandle (List.replicate 8 (pairCall 0)) rfl rfl
    (blockProc_id _) inverts_pairKiss fresh_pairHandle
    fun a ha => by rw [List.eq_of_mem_replicate ha]; decide).2.mpr fun k j hk _ => ?_
  have hk8 : k + 1 < 8 := hk
  rw [hops_pairCall 0 (by omega)]

/-- A stream of ones does not. -/
theorem not_reconstruction_pair :
    pairConfig.winHanning 0 + pairConfig.winHanning (0 + pairConfig.halfWinSize) ≠ 1 ∧
    (final (streamWith pairConfig pairKiss id) (pairHandle, []) (List.replicate 8 (pairCall 1))).2 ≠
      (List.range 8).map (delayed 1 (hops (hop pairConfig) (List.replicate 8 (pairCall 1)))) := by
  have hgain : overlapGain pairConfig 0 ≠ 1 := overlapGain_ne_one rfl pairConfig_winHanning (by decide)
  refine ⟨hgain, fun heq => hgain ?_⟩
  have hemit : (final (streamWith pairConfig pairKiss id) (pairHandle, [])
      (List.replicate 8 (pairCall 1))).2 = _ :=
    emitted_unattenuated (blockProc_id pairConfig) rfl inverts_pairKiss fresh_pairHandle
      fun a ha => by rw [List.eq_of_mem_replicate ha]; decide
  have hsample : delayed 1 (hops (hop pairConfig) (List.replicate 8 (pairCall 1))) 1 * overlapGain pairConfig 0 =
      delayed 1 (hops (hop pairConfig) (List.replicate 8 (pairCall 1))) 1 :=
    List.map_inj_left.mp (hemit.symm.trans heq) 1 (by decide)
  have hone : delayed 1 (hops (hop pairConfig) (List.replicate 8 (pairCall 1))) 1 = 1 := by
    rw [delayed, if_neg (by decide), hops_pairCall 1 (by decide)]
  rwa [hone, one_mul] at hsample

end AudioProcess
