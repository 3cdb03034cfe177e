import AudioProcess.Denoise.Reconstruction
import AudioProcess.Denoise.Reset
import AudioProcess.Fft.Real

/-!
# The denoiser's transforms

The calls of the FFT library, in exact real arithmetic, in place of the parameter.

* `kissOf`: `kiss_fftr` and `kiss_fftri` as the denoiser calls them; **`kissOf_eq`**: what they compute does not depend
  on what earlier calls left in the states; **`inverts_kissOf`**: the second undoes the first;
* **`unattenuated_stream`**: a run without attenuation.
-/

namespace AudioProcess

open CFloat CLoop Dft Finset Mem Runs

/-! ## The transforms of the library -/

/-- `kiss_fftr` with the state `forward`, and `kiss_fftri` with the state `backward`. -/
def kissOf {F : Type} [CFloat F] (winSize : ℕ) (forward backward : KissFftrState F) : Kiss F winSize where
  fftr v f :=
    match kissFftr forward (writeRow v fun _ => ofRat 0) fun _ => ⟨ofRat 0, ofRat 0⟩ with
    | some (bins, _) => bins f
    | none => ⟨ofRat 0, ofRat 0⟩
  fftri row j :=
    match kissFftri backward (writeRow row fun _ => ⟨ofRat 0, ofRat 0⟩) fun _ => ofRat 0 with
    | some (out, _) => out j
    | none => ofRat 0

variable {winSize n : ℕ} {forward backward : KissFftrState ℝ}

theorem fftr_kissOf (hwin : winSize = 2 * n) (hn : 0 < n) (hforward : RealReady n false forward)
    (v : Fin winSize → ℝ) (f : Fin (winSize / 2 + 1)) :
    ((kissOf winSize forward backward).fftr v f).toC = realBins n (writeRow v fun _ => ofRat 0) f := by
  obtain ⟨bins, hrun, hbins, -⟩ := kissFftr_eq (writeRow v fun _ => ofRat 0) hforward (fun _ => ⟨ofRat 0, ofRat 0⟩) hn
  simp only [kissOf, hrun]
  exact hbins f (by have := f.2; omega)

theorem fftri_kissOf (hwin : winSize = 2 * n) (hn : 0 < n) (hbackward : RealReady n true backward)
    (row : Fin (winSize / 2 + 1) → Cpx ℝ) (j : Fin winSize) :
    ((kissOf winSize forward backward).fftri row j : ℂ) =
      realSamples n (writeRow row fun _ => ⟨ofRat 0, ofRat 0⟩) j := by
  obtain ⟨out, z, hrun, hout, -⟩ :=
    kissFftri_eq (writeRow row fun _ => ⟨ofRat 0, ofRat 0⟩) hbackward (fun _ => ofRat 0) hn
  simp only [kissOf, hrun]
  exact hout j (by have := j.2; omega)

/-- **The state that a call leaves computes what the state before it did.** -/
theorem kissOf_eq (hwin : winSize = 2 * n) (hn : 0 < n) {forward' backward' : KissFftrState ℝ}
    (hforward : RealReady n false forward) (hbackward : RealReady n true backward)
    (hforward' : RealReady n false forward') (hbackward' : RealReady n true backward') :
    kissOf winSize forward backward = kissOf winSize forward' backward' := by
  have hfftr : (kissOf winSize forward backward).fftr = (kissOf winSize forward' backward').fftr := by
    funext v f
    apply Cpx.toC_injective
    rw [fftr_kissOf hwin hn hforward, fftr_kissOf hwin hn hforward']
  have hfftri : (kissOf winSize forward backward).fftri = (kissOf winSize forward' backward').fftri := by
    funext row j
    apply Complex.ofReal_injective
    rw [fftri_kissOf hwin hn hbackward, fftri_kissOf hwin hn hbackward']
  exact congrArg₂ Kiss.mk hfftr hfftri

/-- **The library's inverse transform undoes its transform**, times the window's length. -/
theorem inverts_kissOf (hwin : winSize = 2 * n) (hforward : RealReady n false forward)
    (hbackward : RealReady n true backward) : Inverts (kissOf winSize forward backward) := by
  intro v j
  subst hwin
  have hj := j.2
  have hn : 0 < n := by omega
  apply Complex.ofReal_injective
  rw [fftri_kissOf rfl hn hbackward, realSamples_realBins _ hn (writeRow v fun _ => ofRat 0) _ hj]
  · rw [writeRow, dif_pos hj]
    push_cast
    rfl
  · intro k hk
    rw [writeRow, dif_pos (by omega)]
    exact fftr_kissOf rfl hn hforward v ⟨k, by omega⟩

/-! ## A run without attenuation -/

/-- **The denoiser's own transforms reconstruct the stream.** With the FFT library in any states that
`kiss_fftr_alloc` makes, and block processing that leaves the coefficients as they are: from a handle of
`blockThreshold_init`, where every call has room for the output, the samples that the calls hand out are the accepted
ones, one hop later, times the sum of the window's halves: all those of the macro-blocks that are finished. -/
theorem unattenuated_stream {mallocs : Bool} {junkWin : ℕ → ℝ} {junk h : Handle ℝ} {timeWin fs : ℤ} {c : Config ℝ}
    (hinit : blockThresholdInit mallocs junkWin junk timeWin fs = .ok (c, h)) {core : Handle ℝ → Handle ℝ}
    (hcore : BlockProc c core fun coef => coef) {forward backward : KissFftrState ℝ}
    (hforward : RealReady c.halfWinSize false forward) (hbackward : RealReady c.halfWinSize true backward)
    (calls : List (FrameCall ℝ)) (hout : ∀ a ∈ calls, (c.macroSize : ℤ) ≤ a.outLen) :
    (final (streamWith c (kissOf c.winSize forward backward) core) (h, []) calls).2 =
      (List.range (c.halfWinSize * (maxNblkTime * ((accepted (hop c) calls).length / maxNblkTime)))).map fun p =>
        delayed c.halfWinSize (hops (hop c) calls) p * overlapGain c (p % c.halfWinSize) := by
  obtain ⟨htime, hfs, heq⟩ := init_eq hinit
  obtain ⟨hc, hh⟩ := Prod.mk.inj heq
  have hwin : c.winSize = 2 * c.halfWinSize := hc ▸ initConfig_winSize junkWin htime hfs
  have hfresh : Fresh c h := by rw [hh, ← hc]; exact fresh_initHandle c junk
  exact emitted_unattenuated hcore hwin (inverts_kissOf hwin hforward hbackward) hfresh hout

/-- Windows of two samples, and nine hops of ones. -/
theorem unattenuated_stream_pair : ∃ forward backward,
    (final (streamWith pairConfig (kissOf pairConfig.winSize forward backward) id) (pairHandle, [])
        (List.replicate 9 (pairCall 1))).2 =
      (List.range 8).map fun p =>
        delayed pairConfig.halfWinSize (hops (hop pairConfig) (List.replicate 9 (pairCall 1))) p *
          overlapGain pairConfig (p % pairConfig.halfWinSize) := by
  obtain ⟨forward, hforward⟩ := exists_ready (show 0 < 1 by decide) false
  obtain ⟨backward, hbackward⟩ := exists_ready (show 0 < 1 by decide) true
  exact ⟨forward, backward, unattenuated_stream pairHandle_init (blockProc_id pairConfig) hforward hbackward
    (List.replicate 9 (pairCall 1)) fun a ha => by rw [List.eq_of_mem_replicate ha]; decide⟩

end AudioProcess
