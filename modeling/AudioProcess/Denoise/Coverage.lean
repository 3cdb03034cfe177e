import AudioProcess.Denoise.Accesses
import AudioProcess.Denoise.Windows

/-!
# The attenuation map is written once

* `Access.InBounds`: an access inside the matrices that `blockThreshold_init` allocates;
* `ThresholdAccess`, `WienerAccess`, `ScratchAccess`: what the thresholding and the Wiener filter touch;
* `count_tracedComputeThre`, `count_tracedBin`, **`count_tracedThreshold`**: how often a cell of the
  attenuation map is written;
* **`core_writes_once`**.
-/

namespace AudioProcess

open CFloat CLoop Mem Traced

/-! ## Bounds -/

section Bounds

variable {F : Type} (c : Config F)

/-- The row length that `blockThreshold_init` allocates. -/
def CpxMatrix.cols : CpxMatrix → ℕ
  | .stftCoef => c.winSize / 2 + 1
  | .stftThre => c.winSize / 2 + 1
  | .stftCoefBlock => maxNblkFreq
  | .stftCoefBlockNorm => maxNblkFreq

/-- The matrix of an access. -/
def Access.matrix : Access → CpxMatrix
  | .read m _ _ => m
  | .write m _ _ => m

/-- The access is inside the `max_nblk_time` rows of its matrix. -/
def Access.InBounds : Access → Prop
  | .read m row col => row < maxNblkTime ∧ col < m.cols c
  | .write m row col => row < maxNblkTime ∧ col < m.cols c

/-- An access of the thresholding: in bounds, and not a read of the attenuation map. -/
def ThresholdAccess (a : Access) : Prop := a.InBounds c ∧ ∀ t f, a ≠ .read .stftThre t f

/-- An access of the Wiener filter: in bounds, and not a write of the attenuation map. -/
def WienerAccess (a : Access) : Prop := a.InBounds c ∧ ∀ t f, a ≠ .write .stftThre t f

/-- An access that leaves the attenuation map alone. -/
def ScratchAccess (a : Access) : Prop := a.InBounds c ∧ a.matrix ≠ .stftThre

variable {c}

theorem ScratchAccess.ne {a : Access} (h : ScratchAccess c a) (t f : ℕ) :
    a ≠ .read .stftThre t f ∧ a ≠ .write .stftThre t f :=
  ⟨fun e => h.2 (by rw [e]; rfl), fun e => h.2 (by rw [e]; rfl)⟩

theorem ScratchAccess.threshold (a : Access) (h : ScratchAccess c a) : ThresholdAccess c a :=
  ⟨h.1, fun t f => (h.ne t f).1⟩

theorem all_readCell_bind {P : Access → Prop} {m : CpxMatrix} {data : ℕ → ℕ → Cpx F} {row col : ℕ}
    {α : Type} {f : Cpx F → Traced Access α} (h : P (.read m row col)) (hf : All P (f (data row col))) :
    All P (readCell m data row col >>= f) :=
  All.bind (List.forall_mem_singleton.mpr h) hf

theorem all_writeCell {P : Access → Prop} {m : CpxMatrix} {data : ℕ → ℕ → Cpx F} {row col : ℕ} {z : Cpx F}
    (h : P (.write m row col)) : All P (writeCell m data row col z) := List.forall_mem_singleton.mpr h

theorem all_writeCell_bind {P : Access → Prop} {m : CpxMatrix} {data : ℕ → ℕ → Cpx F} {row col : ℕ}
    {z : Cpx F} {α : Type} {f : (ℕ → ℕ → Cpx F) → Traced Access α} (h : P (.write m row col))
    (hf : All P (f (set2 data row col z))) : All P (writeCell m data row col z >>= f) :=
  (all_writeCell h).bind hf

/-- A macro-block ends before bin `win_size / 2`. -/
theorem block_lt {i k : ℕ} (hi : i < c.halfNbMacroblkFrq) (hk : k < maxNblkFreq) :
    1 + i * maxNblkFreq + k < c.winSize / 2 + 1 := by
  have hle : c.halfNbMacroblkFrq * maxNblkFreq ≤ (c.winSize - 1) / 2 := Nat.div_mul_le_self _ _
  have hmul := Nat.mul_le_mul_right maxNblkFreq hi
  rw [Nat.succ_mul] at hmul
  omega

/-- Cell `k` of tile `i`. -/
theorem tile_index_lt {n w i k : ℕ} (hi : i < n) (hk : k < w) : i * w + k < n * w := by
  have hmul := Nat.mul_le_mul_right w (Nat.succ_le_of_lt hi)
  rw [Nat.succ_mul] at hmul
  omega

end Bounds

/-! ## What the loops touch -/

section Events

variable {F : Type} [CFloat F] {c : Config F} {m : CpxMatrix} {data : ℕ → ℕ → Cpx F} {r₀ r₁ c₀ c₁ : ℕ}

theorem scratch_tracedPower (hm : m ≠ .stftThre) (hr : r₁ < maxNblkTime) (hc : c₁ < m.cols c) :
    All (ScratchAccess c) (tracedPower m data r₀ r₁ c₀ c₁) := by
  refine All.loop _ fun row sum _ hrow => All.loop _ fun col sum _ hcol => ?_
  exact all_readCell_bind ⟨⟨by omega, by omega⟩, hm⟩ (All.pure _)

theorem scratch_tracedEnergy (hr : r₁ < maxNblkTime) (hc : c₁ < maxNblkFreq) :
    All (ScratchAccess c) (tracedEnergy data r₀ r₁ c₀ c₁) := by
  refine All.loop _ fun row sum _ hrow => All.loop _ fun col sum _ hcol => ?_
  exact all_readCell_bind ⟨⟨by omega, hcol.trans_le hc⟩, CpxMatrix.noConfusion⟩ (All.pure _)

theorem scratch_tracedCopy {i : ℕ} (hi : i < c.halfNbMacroblkFrq) (h : Handle F) :
    All (ScratchAccess c) (tracedCopy c i h) := by
  refine All.loop _ fun t h _ ht => All.loop _ fun k h _ hk => ?_
  refine all_readCell_bind ⟨⟨ht, block_lt hi hk⟩, CpxMatrix.noConfusion⟩ ?_
  refine all_writeCell_bind ⟨⟨ht, hk⟩, CpxMatrix.noConfusion⟩ ?_
  refine all_readCell_bind ⟨⟨ht, hk⟩, CpxMatrix.noConfusion⟩ ?_
  exact all_writeCell_bind ⟨⟨ht, hk⟩, CpxMatrix.noConfusion⟩ (All.pure _)

theorem scratch_tracedComputeSure (h : Handle F) : All (ScratchAccess c) (tracedComputeSure h) := by
  refine All.loop _ fun T h _ _ => All.loop _ fun Fq h _ _ => All.bind ?_ (All.pure _)
  refine All.loop _ fun ii sure _ hii => All.loop _ fun jj sure _ hjj => All.bind ?_ (All.pure _)
  exact scratch_tracedEnergy (tile_lt (by decide) hii le_rfl) (tile_lt (by decide) hjj le_rfl)

theorem scratch_tracedTileFactor {T Fq ii jj : ℕ} (hii : ii < 2 ^ T) (hjj : jj < 2 ^ Fq) :
    All (ScratchAccess c) (tracedTileFactor c data T Fq ii jj) := by
  have hrow : maxNblkTime / 2 ^ T * (ii + 1) - 1 < maxNblkTime := tile_lt (by decide) hii le_rfl
  have hcol : maxNblkFreq / 2 ^ Fq * (jj + 1) - 1 < maxNblkFreq := tile_lt (by decide) hjj le_rfl
  exact (scratch_tracedPower CpxMatrix.noConfusion hrow hcol).bind (All.pure _)

theorem threshold_tracedComputeThre {i T Fq : ℕ} (hi : i < c.halfNbMacroblkFrq) (hT : T < nblkTime)
    (hFq : Fq < nblkFreq) (h : Handle F) : All (ThresholdAccess c) (tracedComputeThre c h i T Fq) := by
  have hrows : 2 ^ T * (maxNblkTime / 2 ^ T) = maxNblkTime := tiles_cover rfl (Nat.le_of_lt hT)
  have hcols : 2 ^ Fq * (maxNblkFreq / 2 ^ Fq) = maxNblkFreq := tiles_cover rfl (Nat.le_of_lt_succ hFq)
  refine All.bind ?_ (All.pure _)
  refine All.loop _ fun ii thre _ hii => All.loop _ fun jj thre _ hjj => ?_
  refine All.bind ((scratch_tracedTileFactor hii hjj).mono ScratchAccess.threshold) ?_
  refine All.loop _ fun kk thre _ hkk => All.loop _ fun ww thre _ hww => ?_
  have hrow : ii * (maxNblkTime / 2 ^ T) + kk < maxNblkTime := (tile_index_lt hii hkk).trans_eq hrows
  have hcol : jj * (maxNblkFreq / 2 ^ Fq) + ww < maxNblkFreq := (tile_index_lt hjj hww).trans_eq hcols
  refine all_readCell_bind (ScratchAccess.threshold _ ⟨⟨hrow, hcol⟩, CpxMatrix.noConfusion⟩) ?_
  exact all_writeCell ⟨⟨hrow, block_lt hi hcol⟩, fun t f => Access.noConfusion⟩

theorem threshold_tracedBin {f : ℕ} (hf : f < c.winSize / 2 + 1) (h : Handle F) :
    All (ThresholdAccess c) (tracedBin c f h) := by
  have hpower : All (ScratchAccess c) (tracedPower .stftCoef h.stftCoef 0 (maxNblkTime - 1) f f) :=
    scratch_tracedPower CpxMatrix.noConfusion (Nat.lt_succ_self 7) hf
  refine (hpower.mono ScratchAccess.threshold).bind (All.bind ?_ (All.pure _))
  refine All.loop _ fun row dst _ hrow => All.loop _ fun col dst _ hcol => ?_
  have hin : col < c.winSize / 2 + 1 := by omega
  refine all_readCell_bind (ScratchAccess.threshold _ ⟨⟨hrow, hin⟩, CpxMatrix.noConfusion⟩) ?_
  exact all_writeCell ⟨⟨hrow, hin⟩, fun t f => Access.noConfusion⟩

theorem wiener_tracedWiener (h : Handle F) : All (WienerAccess c) (tracedWiener c h) := by
  refine All.bind (All.loop _ fun t coef _ ht => All.loop _ fun f coef _ hf => ?_) (All.pure _)
  have hin : f < c.winSize / 2 + 1 := by omega
  have hread : ∀ m : CpxMatrix, m.cols c = c.winSize / 2 + 1 → WienerAccess c (.read m t f) :=
    fun m hm => ⟨⟨ht, hm ▸ hin⟩, fun t' f' => Access.noConfusion⟩
  have hwrite : WienerAccess c (.write .stftCoef t f) :=
    ⟨⟨ht, hin⟩, fun t' f' heq => CpxMatrix.noConfusion (Access.write.inj heq).1⟩
  refine all_readCell_bind (hread _ rfl) (all_readCell_bind (hread _ rfl) (all_writeCell_bind hwrite ?_))
  split_ifs
  · exact all_readCell_bind (hread _ rfl) (all_writeCell hwrite)
  · exact All.pure _

end Events

/-! ## How often a cell is written -/

section Count

variable {F : Type} {c : Config F} {t f : ℕ}

theorem count_readCell (m : CpxMatrix) (data : ℕ → ℕ → Cpx F) (row col : ℕ) :
    (readCell m data row col).log.count (.write .stftThre t f) = 0 :=
  List.count_eq_zero_of_not_mem fun h => Access.noConfusion (List.mem_singleton.mp h)

theorem count_writeCell (data : ℕ → ℕ → Cpx F) (row col : ℕ) (z : Cpx F) :
    (writeCell .stftThre data row col z).log.count (.write .stftThre t f) =
      if row = t ∧ col = f then 1 else 0 := by
  simp [writeCell, List.count_singleton]

theorem count_scratch {α : Type} {x : Traced Access α} (hx : All (ScratchAccess c) x) :
    x.log.count (.write .stftThre t f) = 0 :=
  (hx.mono fun _ h => (h.ne t f).2).count_eq_zero

variable [CFloat F] (h : Handle F)

theorem count_tracedBin {f' : ℕ} (hf : f' < c.winSize / 2 + 1) :
    (tracedBin c f' h).log.count (.write .stftThre t f) = if t < maxNblkTime ∧ f = f' then 1 else 0 := by
  have hpower : All (ScratchAccess c) (tracedPower .stftCoef h.stftCoef 0 (maxNblkTime - 1) f' f') :=
    scratch_tracedPower CpxMatrix.noConfusion (Nat.lt_succ_self 7) hf
  rw [tracedBin, count_bind, count_scratch hpower, count_bind, log_pure, List.count_nil, tracedMultiply,
    count_loops h.stftThre t f 1]
  · rw [Nat.zero_add, Nat.add_zero]
    exact if_congr (by unfold maxNblkTime; omega) rfl rfl
  · intro row col dst _ _ _ _
    rw [count_bind, count_readCell, count_writeCell, Nat.zero_add]

/-- The writes of macro-block `i`: its eight rows by sixteen columns, whatever the segmentation. -/
theorem count_tracedComputeThre (i : ℕ) {T Fq : ℕ} (hT : T < nblkTime) (hFq : Fq < nblkFreq) :
    (tracedComputeThre c h i T Fq).log.count (.write .stftThre t f) =
      if t < maxNblkTime ∧ 1 + i * maxNblkFreq ≤ f ∧ f < 1 + i * maxNblkFreq + maxNblkFreq then 1 else 0 := by
  have hTime : T ≤ 3 := Nat.le_of_lt hT
  have hFreq : Fq ≤ 4 := Nat.le_of_lt_succ hFq
  have hrows : 2 ^ T * (maxNblkTime / 2 ^ T) = maxNblkTime := tiles_cover rfl hTime
  have hcols : 2 ^ Fq * (maxNblkFreq / 2 ^ Fq) = maxNblkFreq := tiles_cover rfl hFreq
  have hTT : 0 < maxNblkTime / 2 ^ T := tile_pos rfl hTime
  have hFF : 0 < maxNblkFreq / 2 ^ Fq := tile_pos rfl hFreq
  unfold tracedComputeThre
  generalize maxNblkTime / 2 ^ T = TT at *
  generalize maxNblkFreq / 2 ^ Fq = FF at *
  generalize 1 + i * maxNblkFreq = base
  have hp : t / TT < 2 ^ T ↔ t < maxNblkTime := by rw [Nat.div_lt_iff_lt_mul hTT, hrows]
  have hq : (f - base) / FF < 2 ^ Fq ↔ f - base < maxNblkFreq := by rw [Nat.div_lt_iff_lt_mul hFF, hcols]
  rw [count_bind, log_pure, List.count_nil, Nat.add_zero,
    count_loops h.stftThre (t / TT) ((f - base) / FF) (if base ≤ f then 1 else 0)]
  · simp only [hp, hq, Nat.zero_le, true_and]
    split_ifs <;> omega
  · intro ii jj thre _ hii _ hjj
    -- one tile: its cells are those whose row lies in tile row `ii` and whose column in tile column `jj`
    have hrow := in_tile_iff (x := t) (i := ii) hTT
    have hcol := in_tile_iff (x := f - base) (i := jj) hFF
    rw [count_bind, count_scratch (c := c) (scratch_tracedTileFactor hii hjj), Nat.zero_add,
      count_loops thre (t - ii * TT) (f - base - jj * FF)
        (if ii * TT ≤ t ∧ base + jj * FF ≤ f then 1 else 0)]
    · simp only [← hrow, ← hcol, Nat.zero_le, true_and]
      split_ifs <;> omega
    · intro kk ww thre _ _ _ _
      rw [count_bind, count_readCell, count_writeCell, Nat.zero_add]
      split_ifs <;> omega

/-- The writes of one turn of the macro-block loop. -/
theorem count_tracedBlock {choose : Handle F → ℕ → ℕ × ℕ} {i : ℕ}
    (hchoose : ∀ h i, (choose h i).1 < nblkTime ∧ (choose h i).2 < nblkFreq) (hi : i < c.halfNbMacroblkFrq) :
    (tracedBlock c choose i h).log.count (.write .stftThre t f) =
      if t < maxNblkTime ∧ 1 + i * maxNblkFreq ≤ f ∧ f < 1 + i * maxNblkFreq + maxNblkFreq then 1 else 0 := by
  have hseg := hchoose (tracedComputeSure (tracedCopy c i h).val).val i
  rw [tracedBlock, count_bind, count_bind, count_scratch (scratch_tracedCopy hi h),
    count_scratch (c := c) (scratch_tracedComputeSure _), count_tracedComputeThre _ i hseg.1 hseg.2,
    Nat.zero_add, Nat.zero_add]

theorem threshold_tracedBlock {choose : Handle F → ℕ → ℕ × ℕ} {i : ℕ}
    (hchoose : ∀ h i, (choose h i).1 < nblkTime ∧ (choose h i).2 < nblkFreq) (hi : i < c.halfNbMacroblkFrq) :
    All (ThresholdAccess c) (tracedBlock c choose i h) := by
  refine ((scratch_tracedCopy hi h).mono ScratchAccess.threshold).bind ?_
  refine ((scratch_tracedComputeSure _).mono ScratchAccess.threshold).bind ?_
  exact threshold_tracedComputeThre hi (hchoose _ i).1 (hchoose _ i).2 _

theorem threshold_tracedThreshold {choose : Handle F → ℕ → ℕ × ℕ}
    (hchoose : ∀ h i, (choose h i).1 < nblkTime ∧ (choose h i).2 < nblkFreq) :
    All (ThresholdAccess c) (tracedThreshold c choose h) := by
  refine (threshold_tracedBin (Nat.succ_pos _) h).bind (All.bind ?_ ?_)
  · exact All.loop _ fun i h _ hi => threshold_tracedBlock h hchoose hi
  · split_ifs
    · exact All.loop _ fun f h _ hf => threshold_tracedBin hf h
    · exact All.pure _

/-- **The thresholding writes each cell of the attenuation map once.** -/
theorem count_tracedThreshold {choose : Handle F → ℕ → ℕ × ℕ}
    (hchoose : ∀ h i, (choose h i).1 < nblkTime ∧ (choose h i).2 < nblkFreq) :
    (tracedThreshold c choose h).log.count (.write .stftThre t f) =
      if t < maxNblkTime ∧ f < c.winSize / 2 + 1 then 1 else 0 := by
  have hlast : c.idxFreqLast ≤ c.winSize / 2 + 1 := by
    have hle : c.halfNbMacroblkFrq * maxNblkFreq ≤ (c.winSize - 1) / 2 := Nat.div_mul_le_self _ _
    unfold Config.idxFreqLast
    omega
  have hone : 1 ≤ c.idxFreqLast := Nat.le_add_right 1 _
  have hblocks : ∀ h : Handle F, (Traced.loop 0 c.halfNbMacroblkFrq (tracedBlock c choose) h).log.count
      (.write .stftThre t f) = if t < maxNblkTime ∧ 1 ≤ f ∧ f < c.idxFreqLast then 1 else 0 := by
    intro h
    have hin := fun i => in_tile_iff (w := maxNblkFreq) (x := f - 1) (i := i) (Nat.succ_pos 15)
    have hdiv : (f - 1) / maxNblkFreq < c.halfNbMacroblkFrq ↔ f - 1 < c.halfNbMacroblkFrq * maxNblkFreq :=
      Nat.div_lt_iff_lt_mul (Nat.succ_pos 15)
    rw [count_loop h ((f - 1) / maxNblkFreq) (if t < maxNblkTime ∧ 1 ≤ f then 1 else 0)]
    · simp only [hdiv, Nat.zero_le, true_and]
      unfold Config.idxFreqLast
      split_ifs <;> omega
    · intro h _ hi
      rw [count_tracedBlock h hchoose hi]
      have := (hin _).mpr rfl
      exact if_congr (by omega) rfl rfl
    · intro i h _ hi hne
      rw [count_tracedBlock h hchoose hi, if_neg fun hcell => hne ((hin i).mp (by omega))]
  have htrailing : ∀ h : Handle F, (if c.idxFreqLast < c.winSize / 2 + 1 then
      Traced.loop c.idxFreqLast (c.winSize / 2 + 1) (tracedBin c) h else pure h).log.count
      (.write .stftThre t f) = if t < maxNblkTime ∧ c.idxFreqLast ≤ f ∧ f < c.winSize / 2 + 1 then 1 else 0 := by
    intro h
    split_ifs with hlt hcell hcell
    · rw [count_loop h f 1 (fun h _ hf => ?_) fun f' h _ hf' hne => ?_, if_pos hcell.2]
      · rw [count_tracedBin h hf, if_pos ⟨hcell.1, rfl⟩]
      · rw [count_tracedBin h hf', if_neg fun e => hne e.2.symm]
    · rw [count_loop h f 0 (fun h _ hf => ?_) fun f' h _ hf' hne => ?_, ite_self]
      · rw [count_tracedBin h hf, if_neg fun e => hcell ⟨e.1, by omega, hf⟩]
      · rw [count_tracedBin h hf', if_neg fun e => hne e.2.symm]
    · omega
    · rfl
  rw [tracedThreshold, count_bind, count_bind, count_tracedBin h (Nat.succ_pos _), hblocks, htrailing]
  split_ifs <;> omega

/-- **Every cell of the attenuation map is written once, before it is read.** For every choice of the
segmentations, `blockThreshold_core` writes each cell of bins `0` to `win_size / 2` exactly once, each read
of a cell comes after its write, and no access to any of the matrices is out of bounds. -/
theorem core_writes_once (choose : Handle F → ℕ → ℕ × ℕ)
    (hchoose : ∀ h i, (choose h i).1 < nblkTime ∧ (choose h i).2 < nblkFreq) (h : Handle F) :
    (∀ t < maxNblkTime, ∀ f ≤ c.winSize / 2, (tracedCore c choose h).log.count (.write .stftThre t f) = 1) ∧
      (∀ pre t f, pre ++ [.read .stftThre t f] <+: (tracedCore c choose h).log →
        Access.write .stftThre t f ∈ pre) ∧
      ∀ a ∈ (tracedCore c choose h).log, a.InBounds c := by
  have hthreshold := threshold_tracedThreshold (c := c) h hchoose
  have hwiener := wiener_tracedWiener (c := c) (tracedThreshold c choose h).val
  have hall : ∀ a ∈ (tracedCore c choose h).log, a.InBounds c :=
    (hthreshold.mono fun a ha => ha.1).bind (hwiener.mono fun a ha => ha.1)
  refine ⟨fun t ht f hf => ?_, fun pre t f hpre => ?_, hall⟩
  · rw [tracedCore, count_bind, count_tracedThreshold h hchoose,
      (hwiener.mono fun a ha => ha.2 t f).count_eq_zero, if_pos ⟨ht, by omega⟩]
  · have hcell : t < maxNblkTime ∧ f < c.winSize / 2 + 1 :=
      hall _ (hpre.subset (List.mem_append_right pre List.mem_cons_self))
    have hbefore := before_of_first (hthreshold.mono fun a ha => ha.2 t f) hpre
    refine hbefore.subset (List.count_pos_iff.mp ?_)
    rw [count_tracedThreshold h hchoose, if_pos hcell]
    exact Nat.one_pos

/-- Windows of forty samples: one macro-block, here in two by four tiles, and four trailing bins. -/
noncomputable def fortyConfig : Config ℝ := ⟨8000, 40, makeHanningWindow (fun _ => 0) 40, sigmaHanning⟩

theorem core_writes_once_forty :
    (∀ t < maxNblkTime, ∀ f ≤ fortyConfig.winSize / 2,
      (tracedCore fortyConfig (fun _ _ => (1, 2)) zeroHandle).log.count (.write .stftThre t f) = 1) ∧
    (∀ pre t f, pre ++ [.read .stftThre t f] <+: (tracedCore fortyConfig (fun _ _ => (1, 2)) zeroHandle).log →
      Access.write .stftThre t f ∈ pre) ∧
    ∀ a ∈ (tracedCore fortyConfig (fun _ _ => (1, 2)) zeroHandle).log, a.InBounds fortyConfig :=
  core_writes_once (fun _ _ => (1, 2)) (fun _ _ => ⟨by decide, by decide⟩) zeroHandle

end Count

end AudioProcess
