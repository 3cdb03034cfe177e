import AudioProcess.Denoise.Threshold

/-!
# What `blockThreshold_core` computes

Each coefficient of the macro-block by its own formula, over the coefficients at the start:
`factor` is the attenuation factor of a cell, `coreCoef` its final value.

* **`blockThresholdCore_stftCoef`**: the loops compute `coreCoef`;
* **`coreCoef_congr`**: it depends on the transformed windows alone, not on the scratch matrices or on
  cells outside them.
-/

namespace AudioProcess

open CFloat CLoop Mem

variable {F : Type} [CFloat F]

/-! ## The formula -/

/-- Macro-block `i` of the coefficients. -/
def blockOf (coef : ℕ → ℕ → Cpx F) (i : ℕ) : ℕ → ℕ → Cpx F := fun t k => coef t (1 + i * maxNblkFreq + k)

variable (c : Config F)

/-- The SURE table of macro-block `i`. -/
def sureTable (coef : ℕ → ℕ → Cpx F) (i : ℕ) : ℕ → ℕ → F :=
  sureReal fun t k => (blockOf coef i t k).scale (blockNorm c)

/-- The segmentation chosen for macro-block `i`. -/
def segmentation (coef : ℕ → ℕ → Cpx F) (i : ℕ) : ℕ × ℕ := (minSure (sureTable c coef i)).2

/-- The factor for cell `(t, k)` of macro-block `i`. -/
def blockFactor (coef : ℕ → ℕ → Cpx F) (i t k : ℕ) : F :=
  let s := segmentation c coef i
  tileFactor c (blockOf coef i) s.1 s.2 (t / (maxNblkTime / 2 ^ s.1)) (k / (maxNblkFreq / 2 ^ s.2))

/-- The attenuation factor of window `t` at bin `f`. -/
def factor (coef : ℕ → ℕ → Cpx F) (t f : ℕ) : F :=
  if 1 ≤ f ∧ f < c.idxFreqLast then blockFactor c coef ((f - 1) / maxNblkFreq) t ((f - 1) % maxNblkFreq)
  else binFactor c coef f

/-- The coefficient of window `t` at bin `f` after `blockThreshold_core`. -/
def coreCoef (coef : ℕ → ℕ → Cpx F) (t f : ℕ) : Cpx F :=
  if t < maxNblkTime ∧ f < (c.winSize + 1) / 2 then
    wienerBin c f ((coef t f).scale (factor c coef t f)) (coef t f)
  else coef t f

/-! ## Tiles -/

theorem tile_le {n T ii : ℕ} (h : ii < 2 ^ T) : n / 2 ^ T * (ii + 1) ≤ n :=
  (Nat.mul_le_mul_left _ h).trans (Nat.div_mul_le_self n (2 ^ T))

theorem tile_lt {n T ii x : ℕ} (hn : 0 < n) (h : ii < 2 ^ T) (hx : x ≤ n / 2 ^ T * (ii + 1) - 1) :
    x < n := by
  have := tile_le (n := n) h
  omega

variable {data data' : ℕ → ℕ → Cpx F} {r₀ r₁ c₀ c₁ : ℕ}

theorem powerSTFT_congr (h : ∀ x ≤ r₁, ∀ y ≤ c₁, data x y = data' x y) :
    powerSTFT data r₀ r₁ c₀ c₁ = powerSTFT data' r₀ r₁ c₀ c₁ := by
  refine forLoop_congr _ fun x s _ hx => forLoop_congr _ fun y s _ hy => ?_
  simp only [h x (by omega) y (by omega)]

theorem energyRealSTFT_congr (h : ∀ x ≤ r₁, ∀ y ≤ c₁, data x y = data' x y) :
    energyRealSTFT data r₀ r₁ c₀ c₁ = energyRealSTFT data' r₀ r₁ c₀ c₁ := by
  refine forLoop_congr _ fun x s _ hx => forLoop_congr _ fun y s _ hy => ?_
  simp only [h x (by omega) y (by omega)]

/-- Two matrices agree on the cells of a macro-block. -/
def SameBlock (b b' : ℕ → ℕ → Cpx F) : Prop := ∀ t < maxNblkTime, ∀ k < maxNblkFreq, b t k = b' t k

theorem sureReal_congr (h : SameBlock data data') (T Fq : ℕ) :
    sureReal data T Fq = sureReal data' T Fq := by
  refine forLoop_congr _ fun ii s _ hii => forLoop_congr _ fun jj s _ hjj => ?_
  rw [energyRealSTFT_congr fun x hx y hy => h x (tile_lt (by decide) hii hx) y (tile_lt (by decide) hjj hy)]

theorem tileFactor_congr (h : SameBlock data data') {T Fq ii jj : ℕ} (hii : ii < 2 ^ T)
    (hjj : jj < 2 ^ Fq) : tileFactor c data T Fq ii jj = tileFactor c data' T Fq ii jj := by
  simp only [tileFactor]
  rw [powerSTFT_congr fun x hx y hy => h x (tile_lt (by decide) hii hx) y (tile_lt (by decide) hjj hy)]

/-! ## The choice of the segmentation -/

variable {sure sure' : ℕ → ℕ → F}

theorem minSure_congr (h : ∀ T < nblkTime, ∀ Fq < nblkFreq, sure T Fq = sure' T Fq) :
    minSure sure = minSure sure' := by
  unfold minSure
  rw [h 0 (by decide) 0 (by decide)]
  refine forLoop_congr _ fun T s _ hT => forLoop_congr _ fun Fq s _ hFq => ?_
  rw [h T hT Fq hFq]

/-- `s` is an entry of the table, and entry `(0, 0)` or one below some number. -/
def Chosen (sure : ℕ → ℕ → F) (s : ℕ × ℕ) : Prop :=
  s.1 < nblkTime ∧ s.2 < nblkFreq ∧ (s = (0, 0) ∨ ∃ m, sure s.1 s.2 < m)

theorem minSure_chosen (sure : ℕ → ℕ → F) : Chosen sure (minSure sure).2 := by
  refine forLoop_inv (fun s : F × ℕ × ℕ => Chosen sure s.2) ⟨Nat.succ_pos 2, Nat.succ_pos 4, Or.inl rfl⟩
    fun i s _ hi hs => forLoop_inv (fun s : F × ℕ × ℕ => Chosen sure s.2) hs fun j s _ hj hs => ?_
  split_ifs with hlt
  · exact ⟨hi, hj, Or.inr ⟨_, hlt⟩⟩
  · exact hs

theorem segmentation_chosen (coef : ℕ → ℕ → Cpx F) (i : ℕ) :
    Chosen (sureTable c coef i) (segmentation c coef i) := minSure_chosen _

/-! ## The loops -/

theorem scalarMultiply_eq (dst src : ℕ → ℕ → Cpx F) (r₀ r₁ c₀ c₁ : ℕ) (a : F) :
    scalarMultiply dst src r₀ r₁ c₀ c₁ a = fun x y =>
      if (r₀ ≤ x ∧ x < r₁ + 1) ∧ c₀ ≤ y ∧ y < c₁ + 1 then (src x y).scale a else dst x y :=
  forLoop_fill r₀ (r₁ + 1) c₀ (c₁ + 1) (fun x y => (src x y).scale a) dst

theorem copyBlock_eq (i : ℕ) (h : Handle F) : copyBlock c i h = { h with
    stftCoefBlock := fun t k =>
      if t < maxNblkTime ∧ k < maxNblkFreq then blockOf h.stftCoef i t k else h.stftCoefBlock t k
    stftCoefBlockNorm := fun t k =>
      if t < maxNblkTime ∧ k < maxNblkFreq then (blockOf h.stftCoef i t k).scale (blockNorm c)
      else h.stftCoefBlockNorm t k } := by
  let z := blockOf h.stftCoef i
  let zn := fun t k => (z t k).scale (blockNorm c)
  let put (p : (ℕ → ℕ → Cpx F) × (ℕ → ℕ → Cpx F)) : Handle F :=
    { h with stftCoefBlock := p.1, stftCoefBlockNorm := p.2 }
  have hrow : ∀ t p, forLoop 0 maxNblkFreq (fun k h =>
      let block := set2 h.stftCoefBlock t k (h.stftCoef t (1 + i * maxNblkFreq + k))
      { h with
        stftCoefBlock := block
        stftCoefBlockNorm := set2 h.stftCoefBlockNorm t k ((block t k).scale (blockNorm c)) }) (put p) =
      put (forLoop 0 maxNblkFreq (fun k m => set2 m t k (z t k)) p.1,
        forLoop 0 maxNblkFreq (fun k m => set2 m t k (zn t k)) p.2) := by
    intro t p
    rw [← forLoop_prod]
    refine forLoop_map put p fun k p => ?_
    simp only [put, set2_apply, and_self, if_true]
    rfl
  unfold copyBlock
  refine (forLoop_map put (h.stftCoefBlock, h.stftCoefBlockNorm) fun t p => hrow t p).trans ?_
  rw [forLoop_prod, forLoop_fill, forLoop_fill]
  simp only [put, z, zn, Nat.zero_le, true_and]

theorem computeSure_eq (h : Handle F) : computeSure h = { h with
    sureMatrix := fun T Fq =>
      if T < nblkTime ∧ Fq < nblkFreq then sureReal h.stftCoefBlockNorm T Fq else h.sureMatrix T Fq } := by
  let put (m : ℕ → ℕ → F) : Handle F := { h with sureMatrix := m }
  have hloop : computeSure h = put (forLoop 0 nblkTime (fun T m =>
      forLoop 0 nblkFreq (fun Fq m => set2 m T Fq (sureReal h.stftCoefBlockNorm T Fq)) m) h.sureMatrix) :=
    forLoop_map put h.sureMatrix fun T m => forLoop_map put m fun Fq m => rfl
  rw [hloop, forLoop_fill]
  simp only [put, Nat.zero_le, true_and]

theorem tiles_cover {n p T : ℕ} (hn : n = 2 ^ p) (hT : T ≤ p) : 2 ^ T * (n / 2 ^ T) = n := by
  subst hn
  exact Nat.mul_div_cancel' (Nat.pow_dvd_pow 2 hT)

theorem tile_pos {n p T : ℕ} (hn : n = 2 ^ p) (hT : T ≤ p) : 0 < n / 2 ^ T := by
  subst hn
  exact Nat.div_pos (Nat.pow_le_pow_right (by decide) hT) (Nat.two_pow_pos T)

theorem tile_div_lt {n p T x : ℕ} (hn : n = 2 ^ p) (hT : T ≤ p) (hx : x < n) : x / (n / 2 ^ T) < 2 ^ T := by
  apply Nat.div_lt_of_lt_mul
  rwa [Nat.mul_comm, tiles_cover hn hT]

theorem computeThre_stftThre (h : Handle F) (i : ℕ) {T Fq : ℕ} (hT : T < nblkTime) (hFq : Fq < nblkFreq)
    (t f : ℕ) : (blockTresholdComputeThre c h i T Fq).stftThre t f =
      if t < maxNblkTime ∧ 1 + i * maxNblkFreq ≤ f ∧ f < 1 + i * maxNblkFreq + maxNblkFreq then
        (h.stftCoefBlock t (f - (1 + i * maxNblkFreq))).scale (tileFactor c h.stftCoefBlock T Fq
          (t / (maxNblkTime / 2 ^ T)) ((f - (1 + i * maxNblkFreq)) / (maxNblkFreq / 2 ^ Fq)))
      else h.stftThre t f := by
  have hTime : T ≤ 3 := Nat.le_of_lt hT
  have hFreq : Fq ≤ 4 := Nat.le_of_lt_succ hFq
  have h8 : maxNblkTime = 2 ^ 3 := rfl
  have h16 : maxNblkFreq = 2 ^ 4 := rfl
  refine (forLoop_tiles (tile_pos h8 hTime) (tile_pos h16 hFreq) (1 + i * maxNblkFreq)
    (fun ii jj t k => (h.stftCoefBlock t k).scale (tileFactor c h.stftCoefBlock T Fq ii jj))
    h.stftThre t f).trans ?_
  rw [tiles_cover h8 hTime, tiles_cover h16 hFreq]

/-! ## The run -/

/-- The thresholding steps change the scratch matrices only. -/
structure CoreFrame (h h' : Handle F) : Prop where
  haveNblkTime : h'.haveNblkTime = h.haveNblkTime
  inbuf : h'.inbuf = h.inbuf
  inbufWin : h'.inbufWin = h.inbufWin
  outbuf : h'.outbuf = h.outbuf
  stftCoef : h'.stftCoef = h.stftCoef

omit [CFloat F] in
theorem CoreFrame.refl (h : Handle F) : CoreFrame h h := ⟨rfl, rfl, rfl, rfl, rfl⟩

omit [CFloat F] in
theorem CoreFrame.trans {h₀ h₁ h₂ : Handle F} (a : CoreFrame h₀ h₁) (b : CoreFrame h₁ h₂) :
    CoreFrame h₀ h₂ :=
  ⟨b.haveNblkTime.trans a.haveNblkTime, b.inbuf.trans a.inbuf, b.inbufWin.trans a.inbufWin,
    b.outbuf.trans a.outbuf, b.stftCoef.trans a.stftCoef⟩

theorem thresholdBin_stftThre (h : Handle F) (f t f' : ℕ) : (thresholdBin c f h).stftThre t f' =
    if t < maxNblkTime ∧ f' = f then (h.stftCoef t f).scale (binFactor c h.stftCoef f)
    else h.stftThre t f' := by
  simp only [thresholdBin, scalarMultiply_eq]
  by_cases hf : f' = f
  · subst hf
    exact if_congr (by simp [maxNblkTime]) rfl rfl
  · rw [if_neg (by omega), if_neg (by omega)]

theorem thresholdBlock_frame (h : Handle F) (i : ℕ) : CoreFrame h (thresholdBlock c i h) := by
  simp only [thresholdBlock, blockThresholdAdaptiveBlock, blockTresholdComputeThre, copyBlock_eq,
    computeSure_eq]
  exact ⟨rfl, rfl, rfl, rfl, rfl⟩

theorem thresholdBlock_stftThre (h : Handle F) (i t f : ℕ) : (thresholdBlock c i h).stftThre t f =
    if t < maxNblkTime ∧ 1 + i * maxNblkFreq ≤ f ∧ f < 1 + i * maxNblkFreq + maxNblkFreq then
      (h.stftCoef t f).scale (blockFactor c h.stftCoef i t (f - (1 + i * maxNblkFreq)))
    else h.stftThre t f := by
  let g := computeSure (copyBlock c i h)
  have hblock : SameBlock g.stftCoefBlock (blockOf h.stftCoef i) := by
    intro t ht k hk
    simp only [g, computeSure_eq, copyBlock_eq]
    rw [if_pos ⟨ht, hk⟩]
  have hthre : g.stftThre = h.stftThre := by simp only [g, computeSure_eq, copyBlock_eq]
  have hseg : (minSure g.sureMatrix).2 = segmentation c h.stftCoef i := by
    refine congrArg Prod.snd (minSure_congr fun T hT Fq hFq => ?_)
    simp only [g, computeSure_eq, copyBlock_eq]
    rw [if_pos ⟨hT, hFq⟩]
    refine sureReal_congr (fun t ht k hk => ?_) T Fq
    rw [if_pos ⟨ht, hk⟩]
  have hchosen := segmentation_chosen c h.stftCoef i
  show (blockTresholdComputeThre c g i (minSure g.sureMatrix).2.1 (minSure g.sureMatrix).2.2).stftThre t f
    = _
  rw [hseg, computeThre_stftThre c g i hchosen.1 hchosen.2.1, hthre]
  split_ifs with hin
  · obtain ⟨ht, hf₁, hf₂⟩ := hin
    have hk : f - (1 + i * maxNblkFreq) < maxNblkFreq := by omega
    rw [hblock t ht _ hk, tileFactor_congr c hblock]
    · rw [blockOf, Nat.add_sub_cancel' hf₁]
      rfl
    · exact tile_div_lt rfl (Nat.le_of_lt hchosen.1) ht
    · exact tile_div_lt rfl (Nat.le_of_lt_succ hchosen.2.1) hk
  · rfl

/-! ## The core -/

/-- The coefficients of the first `m` bins are attenuated. -/
structure Attenuated (h h' : Handle F) (m : ℕ) : Prop extends CoreFrame h h' where
  stftThre : ∀ t < maxNblkTime, ∀ f < m,
    h'.stftThre t f = (h.stftCoef t f).scale (factor c h.stftCoef t f)

variable {c} {h h' : Handle F}

theorem Attenuated.thresholdBin {f : ℕ} (ha : Attenuated c h h' f) (hf : ¬ (1 ≤ f ∧ f < c.idxFreqLast)) :
    Attenuated c h (thresholdBin c f h') (f + 1) where
  toCoreFrame := ha.toCoreFrame.trans ⟨rfl, rfl, rfl, rfl, rfl⟩
  stftThre t ht f' hf' := by
    rw [thresholdBin_stftThre, ha.stftCoef]
    split_ifs with hin
    · rw [hin.2, factor, if_neg hf]
    · exact ha.stftThre t ht f' (by omega)

theorem Attenuated.thresholdBlock {i : ℕ} (ha : Attenuated c h h' (1 + i * maxNblkFreq))
    (hi : i < c.halfNbMacroblkFrq) :
    Attenuated c h (thresholdBlock c i h') (1 + (i + 1) * maxNblkFreq) where
  toCoreFrame := ha.toCoreFrame.trans (thresholdBlock_frame c h' i)
  stftThre t ht f hf := by
    rw [thresholdBlock_stftThre, ha.stftCoef]
    split_ifs with hin
    · have hlast : 1 + i * maxNblkFreq + maxNblkFreq ≤ c.idxFreqLast := by
        have := Nat.mul_le_mul_right maxNblkFreq hi
        rw [Nat.succ_mul] at this
        unfold Config.idxFreqLast
        omega
      have hsub : f - 1 = maxNblkFreq * i + (f - (1 + i * maxNblkFreq)) := by
        rw [Nat.mul_comm]
        omega
      have hk : f - (1 + i * maxNblkFreq) < maxNblkFreq := by omega
      rw [factor, if_pos (by omega), hsub, Nat.mul_add_div (by decide), Nat.mul_add_mod,
        Nat.div_eq_of_lt hk, Nat.mod_eq_of_lt hk, Nat.add_zero]
    · rw [Nat.succ_mul] at hf
      exact ha.stftThre t ht f (by omega)

variable (c h)

/-- The thresholding before the Wiener filter. -/
theorem attenuated_core : ∃ h', Attenuated c h h' (c.winSize / 2 + 1) ∧
    blockThresholdCore c h = blockThresholdWiener c h' := by
  have hdc : Attenuated c h (thresholdBin c 0 h) 1 :=
    Attenuated.thresholdBin ⟨CoreFrame.refl h, fun t _ f hf => absurd hf (Nat.not_lt_zero f)⟩ (by omega)
  have hblocks : Attenuated c h (forLoop 0 c.halfNbMacroblkFrq (thresholdBlock c) (thresholdBin c 0 h))
      c.idxFreqLast :=
    forLoop_induction (fun i h' => Attenuated c h h' (1 + i * maxNblkFreq)) (Nat.zero_le _) hdc
      fun i h' _ hi ha => ha.thresholdBlock hi
  refine ⟨_, ?_, rfl⟩
  split_ifs with hlast
  · exact forLoop_induction (fun f h' => Attenuated c h h' f) hlast.le hblocks
      fun f h' hf _ ha => ha.thresholdBin (by omega)
  · exact ⟨hblocks.toCoreFrame, fun t ht f hf => hblocks.stftThre t ht f (by omega)⟩

/-- The attenuation map that the Wiener filter reads. -/
theorem blockThresholdCore_stftThre {t f : ℕ} (ht : t < maxNblkTime) (hf : f ≤ c.winSize / 2) :
    (blockThresholdCore c h).stftThre t f = (h.stftCoef t f).scale (factor c h.stftCoef t f) := by
  obtain ⟨h', ha, heq⟩ := attenuated_core c h
  rw [heq]
  exact ha.stftThre t ht f (Nat.lt_succ_of_le hf)

/-- The coefficients after the Wiener filter. -/
theorem blockThresholdWiener_stftCoef (t f : ℕ) : (blockThresholdWiener c h).stftCoef t f =
    if t < maxNblkTime ∧ f < (c.winSize + 1) / 2 then wienerBin c f (h.stftThre t f) (h.stftCoef t f)
    else h.stftCoef t f := by
  have hgrid := forLoop_grid 0 maxNblkTime 0 ((c.winSize + 1) / 2) 0 0
    (fun t f z => wienerBin c f (h.stftThre t f) z) h.stftCoef
  simp only [zero_add, Nat.sub_zero, Nat.zero_le, true_and] at hgrid
  exact congrFun₂ hgrid t f

/-- **The core computes `coreCoef`.** -/
theorem blockThresholdCore_stftCoef :
    (blockThresholdCore c h).stftCoef = coreCoef c h.stftCoef := by
  obtain ⟨h', ha, heq⟩ := attenuated_core c h
  funext t f
  rw [heq, blockThresholdWiener_stftCoef, ha.stftCoef, coreCoef]
  split_ifs with hin
  · rw [ha.stftThre t hin.1 f (by omega)]
  · rfl

theorem blockThresholdCore_frame : (blockThresholdCore c h).haveNblkTime = h.haveNblkTime ∧
    (blockThresholdCore c h).inbuf = h.inbuf ∧ (blockThresholdCore c h).inbufWin = h.inbufWin ∧
    (blockThresholdCore c h).outbuf = h.outbuf := by
  obtain ⟨h', ha, heq⟩ := attenuated_core c h
  rw [heq]
  exact ⟨ha.haveNblkTime, ha.inbuf, ha.inbufWin, ha.outbuf⟩

/-! ## What the formula reads -/

/-- Two matrices agree on the eight transformed windows. -/
def SameWindows (coef coef' : ℕ → ℕ → Cpx F) : Prop :=
  ∀ t < maxNblkTime, ∀ f ≤ c.winSize / 2, coef t f = coef' t f

variable {c} {coef coef' : ℕ → ℕ → Cpx F}

omit [CFloat F] in
theorem lt_of_macroblk {i k : ℕ} (hi : i < c.halfNbMacroblkFrq) (hk : k < maxNblkFreq) :
    1 + i * maxNblkFreq + k ≤ (c.winSize - 1) / 2 := by
  have h₁ := Nat.mul_le_mul_right maxNblkFreq hi
  have h₂ : c.halfNbMacroblkFrq * maxNblkFreq ≤ (c.winSize - 1) / 2 := Nat.div_mul_le_self _ _
  rw [Nat.succ_mul] at h₁
  omega

omit [CFloat F] in
/-- The macro-block of a bin. -/
theorem macroblk_lt {f : ℕ} (hf : 1 ≤ f ∧ f < c.idxFreqLast) : (f - 1) / maxNblkFreq < c.halfNbMacroblkFrq := by
  apply Nat.div_lt_of_lt_mul
  rw [Nat.mul_comm]
  unfold Config.idxFreqLast at hf
  omega

omit [CFloat F] in
theorem SameWindows.blockOf (hw : SameWindows c coef coef') {i : ℕ} (hi : i < c.halfNbMacroblkFrq) :
    SameBlock (blockOf coef i) (blockOf coef' i) := fun t ht k hk =>
  hw t ht _ (by have := lt_of_macroblk hi hk; omega)

theorem SameWindows.segmentation (hw : SameWindows c coef coef') {i : ℕ} (hi : i < c.halfNbMacroblkFrq) :
    segmentation c coef i = segmentation c coef' i := by
  refine congrArg Prod.snd (minSure_congr fun T _ Fq _ => sureReal_congr (fun t ht k hk => ?_) T Fq)
  rw [hw.blockOf hi t ht k hk]

theorem SameWindows.factor (hw : SameWindows c coef coef') {t f : ℕ} (ht : t < maxNblkTime)
    (hf : f ≤ c.winSize / 2) : factor c coef t f = factor c coef' t f := by
  unfold AudioProcess.factor
  split_ifs with hin
  · have hi := macroblk_lt hin
    have hk : (f - 1) % maxNblkFreq < maxNblkFreq := Nat.mod_lt _ (by decide)
    have hchosen := segmentation_chosen c coef' ((f - 1) / maxNblkFreq)
    unfold blockFactor
    rw [hw.segmentation hi]
    exact tileFactor_congr c (hw.blockOf hi) (tile_div_lt rfl (Nat.le_of_lt hchosen.1) ht)
      (tile_div_lt rfl (Nat.le_of_lt_succ hchosen.2.1) hk)
  · simp only [binFactor]
    rw [powerSTFT_congr fun x hx y hy => hw x (by unfold maxNblkTime at *; omega) y (by omega)]

/-- **The result on the windows depends on the windows alone.** -/
theorem coreCoef_congr (hw : SameWindows c coef coef') : SameWindows c (coreCoef c coef) (coreCoef c coef') := by
  intro t ht f hf
  unfold coreCoef
  rw [hw.factor ht hf, hw t ht f hf]

end AudioProcess
