import AudioProcess.Denoise.CoreSpec
import AudioProcess.Lib.Traced

/-!
# The matrix cells that `blockThreshold_core` touches

`blockThreshold_core` and what it calls once more, with every access to a cell of the four complex matrices
logged. The segmentation of a macro-block is a parameter `choose`; the program's own is the one of least
risk.

* `readCell`, `writeCell`: the logged accesses;
* `tracedPower`, …, `tracedThreshold`, the part before the Wiener filter, and `tracedCore`;
* **`val_tracedCore`**: without the log it is `blockThresholdCore`.
-/

namespace AudioProcess

open CFloat CLoop Mem

/-- The matrices of the handle. -/
inductive CpxMatrix
  | stftCoef
  | stftThre
  | stftCoefBlock
  | stftCoefBlockNorm
  deriving DecidableEq

/-- An access to a cell. -/
inductive Access
  | read (m : CpxMatrix) (row col : ℕ)
  | write (m : CpxMatrix) (row col : ℕ)
  deriving DecidableEq

/-! ## The code with its accesses -/

variable {F : Type}

/-- Read cell `(row, col)` of the matrix `m`, which holds `data`. -/
def readCell (m : CpxMatrix) (data : ℕ → ℕ → Cpx F) (row col : ℕ) : Traced Access (Cpx F) :=
  ⟨data row col, [.read m row col]⟩

/-- Write cell `(row, col)` of the matrix `m`, which holds `data`. -/
def writeCell (m : CpxMatrix) (data : ℕ → ℕ → Cpx F) (row col : ℕ) (z : Cpx F) :
    Traced Access (ℕ → ℕ → Cpx F) := ⟨set2 data row col z, [.write m row col]⟩

@[simp] theorem val_readCell (m : CpxMatrix) (data : ℕ → ℕ → Cpx F) (row col : ℕ) :
    (readCell m data row col).val = data row col := rfl

@[simp] theorem val_writeCell (m : CpxMatrix) (data : ℕ → ℕ → Cpx F) (row col : ℕ) (z : Cpx F) :
    (writeCell m data row col z).val = set2 data row col z := rfl

variable [CFloat F]

/-- `power_STFT` of the matrix `m`. -/
def tracedPower (m : CpxMatrix) (data : ℕ → ℕ → Cpx F) (rowStart rowEnd colStart colEnd : ℕ) :
    Traced Access F :=
  Traced.loop rowStart (rowEnd + 1) (fun row sum =>
    Traced.loop colStart (colEnd + 1) (fun col sum => do
      let z ← readCell m data row col
      return sum + (z.r * z.r + z.i * z.i)) sum) (ofRat 0)

/-- `energy_real_STFT` of `stft_coef_block_norm`. -/
def tracedEnergy (data : ℕ → ℕ → Cpx F) (rowStart rowEnd colStart colEnd : ℕ) : Traced Access F :=
  Traced.loop rowStart (rowEnd + 1) (fun row sum =>
    Traced.loop colStart (colEnd + 1) (fun col sum => do
      let z ← readCell .stftCoefBlockNorm data row col
      return sum + z.r * z.r) sum) (ofRat 0)

/-- `scalar_multiply` from `stft_coef` to `stft_thre`. -/
def tracedMultiply (dst src : ℕ → ℕ → Cpx F) (rowStart rowEnd colStart colEnd : ℕ) (a : F) :
    Traced Access (ℕ → ℕ → Cpx F) :=
  Traced.loop rowStart (rowEnd + 1) (fun row dst =>
    Traced.loop colStart (colEnd + 1) (fun col dst => do
      let z ← readCell .stftCoef src row col
      writeCell .stftThre dst row col (z.scale a)) dst) dst

variable (c : Config F)

/-- The first loop of `blockThreshold_adaptive_block`. -/
def tracedCopy (i : ℕ) (h : Handle F) : Traced Access (Handle F) :=
  Traced.loop 0 maxNblkTime (fun t h =>
    Traced.loop 0 maxNblkFreq (fun k h => do
      let z ← readCell .stftCoef h.stftCoef t (1 + i * maxNblkFreq + k)
      let block ← writeCell .stftCoefBlock h.stftCoefBlock t k z
      let z ← readCell .stftCoefBlock block t k
      let norm ← writeCell .stftCoefBlockNorm h.stftCoefBlockNorm t k (z.scale (blockNorm c))
      return { h with stftCoefBlock := block, stftCoefBlockNorm := norm }) h) h

/-- `SURE_real` of a segmentation. -/
def tracedSure (norm : ℕ → ℕ → Cpx F) (T Fq : ℕ) : Traced Access F :=
  let TT := maxNblkTime / 2 ^ T
  let FF := maxNblkFreq / 2 ^ Fq
  Traced.loop 0 (2 ^ T) (fun ii sure =>
    Traced.loop 0 (2 ^ Fq) (fun jj sure => do
      let energy ← tracedEnergy norm (TT * ii) (TT * (ii + 1) - 1) (FF * jj) (FF * (jj + 1) - 1)
      return sure + sureTile (ofRat (mLambda T Fq)) (ofNat (TT * FF)) energy) sure) (ofRat 0)

/-- The second loop of `blockThreshold_adaptive_block`. -/
def tracedComputeSure (h : Handle F) : Traced Access (Handle F) :=
  Traced.loop 0 nblkTime (fun T h =>
    Traced.loop 0 nblkFreq (fun Fq h => do
      let sure ← tracedSure h.stftCoefBlockNorm T Fq
      return { h with sureMatrix := set2 h.sureMatrix T Fq sure }) h) h

/-- The factor of a tile in `blockTreshold_compute_thre`. -/
def tracedTileFactor (block : ℕ → ℕ → Cpx F) (segTime segFreq ii jj : ℕ) : Traced Access F := do
  let TT := maxNblkTime / 2 ^ segTime
  let FF := maxNblkFreq / 2 ^ segFreq
  let a := ofRat (mLambda segTime segFreq) * ofNat TT * ofNat FF *
    (c.sigmaHanningNoise * c.sigmaHanningNoise) * ofNat c.winSize
  let power ← tracedPower .stftCoefBlock block (TT * ii) (TT * (ii + 1) - 1) (FF * jj) (FF * (jj + 1) - 1)
  let a := ofRat 1 - a / power
  return a * ofBool (a > ofRat 0)

/-- `blockTreshold_compute_thre`. -/
def tracedComputeThre (h : Handle F) (i segTime segFreq : ℕ) : Traced Access (Handle F) := do
  let TT := maxNblkTime / 2 ^ segTime
  let FF := maxNblkFreq / 2 ^ segFreq
  let idxBase := 1 + i * maxNblkFreq
  let thre ← Traced.loop 0 (2 ^ segTime) (fun ii thre =>
    Traced.loop 0 (2 ^ segFreq) (fun jj thre => do
      let a ← tracedTileFactor c h.stftCoefBlock segTime segFreq ii jj
      Traced.loop 0 TT (fun kk thre =>
        Traced.loop 0 FF (fun ww thre => do
          let idxRow := ii * TT + kk
          let idxCol := jj * FF + ww
          let z ← readCell .stftCoefBlock h.stftCoefBlock idxRow idxCol
          writeCell .stftThre thre idxRow (idxBase + idxCol) (z.scale a)) thre) thre) thre) h.stftThre
  return { h with stftThre := thre }

/-- `blockThreshold_wiener`. -/
def tracedWiener (h : Handle F) : Traced Access (Handle F) := do
  let coef ← Traced.loop 0 maxNblkTime (fun t coef =>
    Traced.loop 0 ((c.winSize + 1) / 2) (fun f coef => do
      let thre ← readCell .stftThre h.stftThre t f
      let z ← readCell .stftCoef coef t f
      let coef ← writeCell .stftCoef coef t f (z.scale (wienerGain c thre))
      if (f : ℤ) < lowFIndex c then do
        let z ← readCell .stftCoef coef t f
        writeCell .stftCoef coef t f (z.scale (ofRat 0.45))
      else return coef) coef) h.stftCoef
  return { h with stftCoef := coef }

/-- Attenuate bin `f` alone. -/
def tracedBin (f : ℕ) (h : Handle F) : Traced Access (Handle F) := do
  let a := ofRat 2.5 * ofRat 8 * (c.sigmaHanningNoise * c.sigmaHanningNoise) * ofNat c.winSize
  let power ← tracedPower .stftCoef h.stftCoef 0 (maxNblkTime - 1) f f
  let a := ofRat 1 - a / power
  let a := if a < ofRat 0 then ofRat 0 else a
  let thre ← tracedMultiply h.stftThre h.stftCoef 0 (maxNblkTime - 1) f f a
  return { h with stftThre := thre }

variable (choose : Handle F → ℕ → ℕ × ℕ)

/-- One turn of the macro-block loop, with the segmentation `choose`. -/
def tracedBlock (i : ℕ) (h : Handle F) : Traced Access (Handle F) := do
  let h ← tracedCopy c i h
  let h ← tracedComputeSure h
  tracedComputeThre c h i (choose h i).1 (choose h i).2

/-- `blockThreshold_core` up to the Wiener filter. -/
def tracedThreshold (h : Handle F) : Traced Access (Handle F) := do
  let h ← tracedBin c 0 h
  let h ← Traced.loop 0 c.halfNbMacroblkFrq (tracedBlock c choose) h
  if c.idxFreqLast < c.winSize / 2 + 1 then Traced.loop c.idxFreqLast (c.winSize / 2 + 1) (tracedBin c) h
  else return h

/-- `blockThreshold_core`. -/
def tracedCore (h : Handle F) : Traced Access (Handle F) := do
  let h ← tracedThreshold c choose h
  tracedWiener c h

/-! ## Without the log -/

@[simp] theorem val_tracedPower (m : CpxMatrix) (data : ℕ → ℕ → Cpx F) (r₀ r₁ c₀ c₁ : ℕ) :
    (tracedPower m data r₀ r₁ c₀ c₁).val = powerSTFT data r₀ r₁ c₀ c₁ := by
  simp only [tracedPower, Traced.val_loop, Traced.val_bind, Traced.val_pure, val_readCell]
  rfl

@[simp] theorem val_tracedEnergy (data : ℕ → ℕ → Cpx F) (r₀ r₁ c₀ c₁ : ℕ) :
    (tracedEnergy data r₀ r₁ c₀ c₁).val = energyRealSTFT data r₀ r₁ c₀ c₁ := by
  simp only [tracedEnergy, Traced.val_loop, Traced.val_bind, Traced.val_pure, val_readCell]
  rfl

@[simp] theorem val_tracedMultiply (dst src : ℕ → ℕ → Cpx F) (r₀ r₁ c₀ c₁ : ℕ) (a : F) :
    (tracedMultiply dst src r₀ r₁ c₀ c₁ a).val = scalarMultiply dst src r₀ r₁ c₀ c₁ a := by
  simp only [tracedMultiply, Traced.val_loop, Traced.val_bind, val_readCell, val_writeCell]
  rfl

theorem val_tracedCopy (i : ℕ) (h : Handle F) : (tracedCopy c i h).val = copyBlock c i h := by
  simp only [tracedCopy, Traced.val_loop, Traced.val_bind, Traced.val_pure, val_readCell, val_writeCell]
  rfl

@[simp] theorem val_tracedSure (norm : ℕ → ℕ → Cpx F) (T Fq : ℕ) :
    (tracedSure norm T Fq).val = sureReal norm T Fq := by
  simp only [tracedSure, Traced.val_loop, Traced.val_bind, Traced.val_pure, val_tracedEnergy]
  rfl

theorem val_tracedComputeSure (h : Handle F) : (tracedComputeSure h).val = computeSure h := by
  simp only [tracedComputeSure, Traced.val_loop, Traced.val_bind, Traced.val_pure, val_tracedSure]
  rfl

@[simp] theorem val_tracedTileFactor (block : ℕ → ℕ → Cpx F) (T Fq ii jj : ℕ) :
    (tracedTileFactor c block T Fq ii jj).val = tileFactor c block T Fq ii jj := by
  simp only [tracedTileFactor, Traced.val_bind, Traced.val_pure, val_tracedPower]
  rfl

theorem val_tracedComputeThre (h : Handle F) (i T Fq : ℕ) :
    (tracedComputeThre c h i T Fq).val = blockTresholdComputeThre c h i T Fq := by
  simp only [tracedComputeThre, Traced.val_loop, Traced.val_bind, Traced.val_pure, val_tracedTileFactor,
    val_readCell, val_writeCell]
  rfl

theorem val_tracedBin (f : ℕ) (h : Handle F) : (tracedBin c f h).val = thresholdBin c f h := by
  simp only [tracedBin, Traced.val_bind, Traced.val_pure, val_tracedPower, val_tracedMultiply]
  rfl

theorem val_tracedWiener (h : Handle F) : (tracedWiener c h).val = blockThresholdWiener c h := by
  have hset : ∀ (m : ℕ → ℕ → Cpx F) (t f : ℕ) (z z' : Cpx F), set2 (set2 m t f z) t f z' = set2 m t f z' := by
    intro m t f z z'
    funext x y
    simp only [set2_apply]
    split_ifs <;> rfl
  have hturn : ∀ (t f : ℕ) (coef : ℕ → ℕ → Cpx F), (if (f : ℤ) < lowFIndex c then
      set2 (set2 coef t f ((coef t f).scale (wienerGain c (h.stftThre t f)))) t f
        ((set2 coef t f ((coef t f).scale (wienerGain c (h.stftThre t f))) t f).scale (ofRat 0.45))
      else set2 coef t f ((coef t f).scale (wienerGain c (h.stftThre t f)))) =
      set2 coef t f (wienerBin c f (h.stftThre t f) (coef t f)) := by
    intro t f coef
    simp only [wienerBin, hset, set2_apply, and_self, if_true]
    split_ifs <;> rfl
  simp only [tracedWiener, Traced.val_loop, Traced.val_bind, Traced.val_pure, val_readCell, val_writeCell,
    apply_ite Traced.val, hturn]
  rfl

theorem val_tracedBlock (i : ℕ) (h : Handle F) :
    (tracedBlock c (fun h _ => (minSure h.sureMatrix).2) i h).val = thresholdBlock c i h := by
  simp only [tracedBlock, Traced.val_bind, val_tracedCopy, val_tracedComputeSure, val_tracedComputeThre]
  rfl

/-- **With the program's choice of the segmentation, the traced core is `blockThreshold_core`.** -/
theorem val_tracedCore (h : Handle F) :
    (tracedCore c (fun h _ => (minSure h.sureMatrix).2) h).val = blockThresholdCore c h := by
  simp only [tracedCore, tracedThreshold, Traced.val_bind, val_tracedWiener, apply_ite Traced.val,
    Traced.val_loop, val_tracedBlock, val_tracedBin, Traced.val_pure]
  rfl

end AudioProcess
