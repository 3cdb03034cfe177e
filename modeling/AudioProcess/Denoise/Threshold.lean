import AudioProcess.Denoise.Handle

/-!
# Block thresholding (`Denoise/BlockThresholding/src/audioDenoiseBlockTreshold.c`)

`blockThreshold_core` and what it calls, as the loops of the source. The arithmetic of one attenuation
factor is named: `binFactor` (one bin over the eight windows: the DC bin and the trailing bins),
`tileFactor` (one tile of a frequency macro-block), `wienerGain`.

* `blockThresholdAdaptiveBlock`: copy a macro-block, tabulate `SURE_matrix`, choose the segmentation;
* `blockTresholdComputeThre`: the attenuated coefficients of the macro-block;
* `blockThresholdWiener`, `blockThresholdCore`.
-/

namespace AudioProcess

open CFloat CLoop Mem

variable {F : Type} [CFloat F]

/-- `m_lambda`. -/
def mLambda (t f : ℕ) : ℚ :=
  (([[1.5, 1.8, 2, 2.5, 2.5], [1.8, 2, 2.5, 3.5, 3.5], [2, 2.5, 3.5, 4.7, 4.7]] : List (List ℚ)).getD t
    []).getD f 0

/-- `power_STFT`: the power of the cells of rows `rowStart..rowEnd` and columns `colStart..colEnd`. -/
def powerSTFT (data : ℕ → ℕ → Cpx F) (rowStart rowEnd colStart colEnd : ℕ) : F :=
  forLoop rowStart (rowEnd + 1) (fun row sum =>
    forLoop colStart (colEnd + 1) (fun col sum =>
      let r := (data row col).r
      let i := (data row col).i
      sum + (r * r + i * i)) sum) (ofRat 0)

/-- `energy_real_STFT`. -/
def energyRealSTFT (data : ℕ → ℕ → Cpx F) (rowStart rowEnd colStart colEnd : ℕ) : F :=
  forLoop rowStart (rowEnd + 1) (fun row sum =>
    forLoop colStart (colEnd + 1) (fun col sum =>
      let r := (data row col).r
      sum + r * r) sum) (ofRat 0)

/-- A coefficient times a factor. -/
def Cpx.scale (z : Cpx F) (a : F) : Cpx F := ⟨z.r * a, z.i * a⟩

/-- `scalar_multiply`. -/
def scalarMultiply (dst src : ℕ → ℕ → Cpx F) (rowStart rowEnd colStart colEnd : ℕ) (a : F) :
    ℕ → ℕ → Cpx F :=
  forLoop rowStart (rowEnd + 1) (fun row dst =>
    forLoop colStart (colEnd + 1) (fun col dst => set2 dst row col ((src row col).scale a)) dst) dst

variable (c : Config F)

/-- `norm`. -/
def blockNorm : F := sqrt (ofRat 2) / (sqrt (ofNat c.winSize) * c.sigmaHanningNoise)

/-- The first loop of `blockThreshold_adaptive_block`: macro-block `i` into `stft_coef_block` and,
normalized, into `stft_coef_block_norm`. -/
def copyBlock (i : ℕ) (h : Handle F) : Handle F :=
  forLoop 0 maxNblkTime (fun t h =>
    forLoop 0 maxNblkFreq (fun k h =>
      let block := set2 h.stftCoefBlock t k (h.stftCoef t (1 + i * maxNblkFreq + k))
      { h with
        stftCoefBlock := block
        stftCoefBlockNorm := set2 h.stftCoefBlockNorm t k ((block t k).scale (blockNorm c)) }) h) h

/-- The SURE risk of one tile of `size` cells with real energy `energy`. -/
def sureTile (lambda size energy : F) : F :=
  let temp := lambda * lambda * (size * size) - ofRat 2 * lambda * size * (size - ofRat 2)
  size + temp / energy * ofBool (energy > lambda * size)
    + (energy - ofRat 2 * size) * ofBool (energy ≤ lambda * size)

/-- `SURE_real` of the segmentation in `2 ^ T` by `2 ^ Fq` tiles. -/
def sureReal (norm : ℕ → ℕ → Cpx F) (T Fq : ℕ) : F :=
  let TT := maxNblkTime / 2 ^ T
  let FF := maxNblkFreq / 2 ^ Fq
  forLoop 0 (2 ^ T) (fun ii sure =>
    forLoop 0 (2 ^ Fq) (fun jj sure =>
      sure + sureTile (ofRat (mLambda T Fq)) (ofNat (TT * FF))
        (energyRealSTFT norm (TT * ii) (TT * (ii + 1) - 1) (FF * jj) (FF * (jj + 1) - 1))) sure)
    (ofRat 0)

/-- The second loop of `blockThreshold_adaptive_block`. -/
def computeSure (h : Handle F) : Handle F :=
  forLoop 0 nblkTime (fun T h =>
    forLoop 0 nblkFreq (fun Fq h =>
      { h with sureMatrix := set2 h.sureMatrix T Fq (sureReal h.stftCoefBlockNorm T Fq) }) h) h

/-- The third loop: the first entry that no later one is below. -/
def minSure (sure : ℕ → ℕ → F) : F × ℕ × ℕ :=
  forLoop 0 nblkTime (fun i s =>
    forLoop 0 nblkFreq (fun j s => if sure i j < s.1 then (sure i j, i, j) else s) s) (sure 0 0, 0, 0)

/-- `blockThreshold_adaptive_block`, with `*seg_time` and `*seg_freq`. -/
def blockThresholdAdaptiveBlock (h : Handle F) (i : ℕ) : Handle F × ℕ × ℕ :=
  let h := computeSure (copyBlock c i h)
  (h, (minSure h.sureMatrix).2)

/-- The factor `a` that `blockTreshold_compute_thre` computes for tile `(ii, jj)`. -/
def tileFactor (block : ℕ → ℕ → Cpx F) (segTime segFreq ii jj : ℕ) : F :=
  let TT := maxNblkTime / 2 ^ segTime
  let FF := maxNblkFreq / 2 ^ segFreq
  let a := ofRat (mLambda segTime segFreq) * ofNat TT * ofNat FF *
    (c.sigmaHanningNoise * c.sigmaHanningNoise) * ofNat c.winSize
  let a := ofRat 1 -
    a / powerSTFT block (TT * ii) (TT * (ii + 1) - 1) (FF * jj) (FF * (jj + 1) - 1)
  a * ofBool (a > ofRat 0)

/-- `blockTreshold_compute_thre`. -/
def blockTresholdComputeThre (h : Handle F) (i segTime segFreq : ℕ) : Handle F :=
  let TT := maxNblkTime / 2 ^ segTime
  let FF := maxNblkFreq / 2 ^ segFreq
  let idxBase := 1 + i * maxNblkFreq
  { h with
    stftThre := forLoop 0 (2 ^ segTime) (fun ii thre =>
      forLoop 0 (2 ^ segFreq) (fun jj thre =>
        let a := tileFactor c h.stftCoefBlock segTime segFreq ii jj
        forLoop 0 TT (fun kk thre =>
          forLoop 0 FF (fun ww thre =>
            let idxRow := ii * TT + kk
            let idxCol := jj * FF + ww
            set2 thre idxRow (idxBase + idxCol) ((h.stftCoefBlock idxRow idxCol).scale a)) thre) thre)
        thre) h.stftThre }

/-- `low_f_index`. -/
def lowFIndex : ℤ := trunc (ofRat 500 / ofNat (c.fs / c.halfWinSize) : F)

/-- The gain `wiener` for the attenuated coefficient `z`. -/
def wienerGain (z : Cpx F) : F :=
  let wiener := z.r * z.r + z.i * z.i
  wiener / (wiener + ofNat c.winSize * (c.sigmaHanningNoise * c.sigmaHanningNoise))

/-- The body of the Wiener loops for bin `f`: the coefficient `z` under the attenuated one, `thre`. -/
def wienerBin (f : ℕ) (thre z : Cpx F) : Cpx F :=
  let z := z.scale (wienerGain c thre)
  if (f : ℤ) < lowFIndex c then z.scale (ofRat 0.45) else z

/-- `blockThreshold_wiener`. -/
def blockThresholdWiener (h : Handle F) : Handle F :=
  { h with
    stftCoef := forLoop 0 maxNblkTime (fun t coef =>
      forLoop 0 ((c.winSize + 1) / 2) (fun f coef =>
        set2 coef t f (wienerBin c f (h.stftThre t f) (coef t f))) coef) h.stftCoef }

/-- The factor `a` that `blockThreshold_core` computes for bin `f` alone. -/
def binFactor (coef : ℕ → ℕ → Cpx F) (f : ℕ) : F :=
  let a := ofRat 2.5 * ofRat 8 * (c.sigmaHanningNoise * c.sigmaHanningNoise) * ofNat c.winSize
  let a := ofRat 1 - a / powerSTFT coef 0 (maxNblkTime - 1) f f
  if a < ofRat 0 then ofRat 0 else a

/-- Attenuate bin `f` alone. -/
def thresholdBin (f : ℕ) (h : Handle F) : Handle F :=
  { h with
    stftThre := scalarMultiply h.stftThre h.stftCoef 0 (maxNblkTime - 1) f f
      (binFactor c h.stftCoef f) }

/-- `half_nb_macroblk_frq`. -/
def Config.halfNbMacroblkFrq : ℕ := (c.winSize - 1) / 2 / maxNblkFreq

/-- One turn of the macro-block loop. -/
def thresholdBlock (i : ℕ) (h : Handle F) : Handle F :=
  let (h, segTime, segFreq) := blockThresholdAdaptiveBlock c h i
  blockTresholdComputeThre c h i segTime segFreq

/-- `idx_freq_last`. -/
def Config.idxFreqLast : ℕ := 1 + c.halfNbMacroblkFrq * maxNblkFreq

/-- `blockThreshold_core`. -/
def blockThresholdCore (h : Handle F) : Handle F :=
  let h := thresholdBin c 0 h
  let h := forLoop 0 c.halfNbMacroblkFrq (thresholdBlock c) h
  let h := if c.idxFreqLast < c.winSize / 2 + 1 then
      forLoop c.idxFreqLast (c.winSize / 2 + 1) (thresholdBin c) h
    else h
  blockThresholdWiener c h

end AudioProcess
