import AudioProcess.Denoise.Api
import AudioProcess.Denoise.CoreSpec
import AudioProcess.Lib.OverlapAdd

/-!
# Analysis and synthesis along a stream

`x n` is the `n`-th hop of the stream, counted from `0`. `windowed` is the segment that the STFT
transforms, `synthesis` what the inverse STFT adds to `outbuf` for a row of coefficients.

* `makeHanningWindow_apply`, `fresh_initHandle`: what `blockThreshold_init` leaves;
* `stftHop`: an accepted call up to the block processing;
* `outbuf_inverse`: the inverse STFT adds the rows' frames to the shifted `outbuf`;
* `StreamInv`: what the handle holds after `n` hops; **`StreamInv.pending`**, **`StreamInv.full`**: an
  accepted call keeps it.
-/

namespace AudioProcess

open CFloat CLoop Mem OverlapAdd

variable {F : Type} [CFloat F]

/-! ## Initialisation -/

/-- The window formula of `make_hanning_window`. -/
def hann (winSize i : ℕ) : F :=
  ofRat 0.5 - ofRat 0.5 * cos (ofRat 2 * pi * ofNat i / (ofNat winSize - ofRat 1))

/-- The window is filled from both ends. -/
theorem makeHanningWindow_apply {n half : ℕ} (hn : n = 2 * half) (m : ℕ → F) {j : ℕ} (hj : j < n) :
    makeHanningWindow m n j = hann n (min j (n - 1 - j)) := by
  have hhalf : n / 2 = half := by omega
  have hfill : ∀ j < n, j < half ∨ n - 1 - j < half →
      makeHanningWindow m n j = hann n (min j (n - 1 - j)) := by
    unfold makeHanningWindow
    rw [hhalf]
    refine forLoop_induction (fun i (w : ℕ → F) => ∀ j < n, j < i ∨ n - 1 - j < i →
      w j = hann n (min j (n - 1 - j))) (Nat.zero_le half) (fun j _ h => by omega) fun i w _ hi hw j hj h => ?_
    by_cases h₁ : j = n - 1 - i
    · subst h₁
      rw [Function.update_self, Function.update_self, min_eq_right (by omega),
        show n - 1 - (n - 1 - i) = i by omega]
      rfl
    · rw [Function.update_of_ne h₁]
      by_cases h₂ : j = i
      · subst h₂
        rw [Function.update_self, min_eq_left (by omega)]
        rfl
      · rw [Function.update_of_ne h₂]
        exact hw j hj (by omega)
  exact hfill j hj (by omega)

/-- The handle after `blockThreshold_init`, or after a reset. -/
structure Fresh (c : Config F) (h : Handle F) : Prop where
  haveNblkTime : h.haveNblkTime = 0
  inbuf : ∀ j < c.winSize, h.inbuf j = ofRat 0
  outbuf : ∀ j < c.macroSize + c.halfWinSize, h.outbuf j = ofRat 0

theorem fresh_initHandle (c : Config F) (junk : Handle F) : Fresh c (initHandle c junk) :=
  ⟨rfl, fun _ hj => memset_of_lt hj, fun _ hj => memset_of_lt hj⟩

theorem fresh_reset (c : Config F) (h : Handle F) : Fresh c (blockThresholdReset c h) :=
  ⟨rfl, fun _ hj => memset_of_lt hj, fun _ hj => memset_of_lt hj⟩

theorem initConfig_winSize (junkWin : ℕ → F) {timeWin fs : ℤ} (ht : 0 < timeWin) (hfs : 0 < fs) :
    (initConfig junkWin timeWin fs).winSize = 2 * (initConfig junkWin timeWin fs).halfWinSize := by
  have hw : 0 ≤ fs / 1000 * timeWin := Int.mul_nonneg (Int.ediv_nonneg hfs.le (by decide)) ht.le
  have heven : (initConfig junkWin timeWin fs).winSize % 2 = 0 := by
    show (initWinSize timeWin fs).toNat % 2 = 0
    unfold initWinSize
    simp only
    generalize fs / 1000 * timeWin = w at hw
    split_ifs <;> omega
  unfold Config.halfWinSize
  omega

/-! ## Segments and frames -/

/-- The hop before hop `n`. -/
def previous (x : ℕ → ℕ → F) : ℕ → ℕ → F
  | 0 => fun _ => ofRat 0
  | n + 1 => x n

variable (c : Config F) (kiss : Kiss F c.winSize)

/-- The windowed segment of hops `t - 1` and `t`. -/
def windowed (x : ℕ → ℕ → F) (t : ℕ) (i : Fin c.winSize) : F :=
  (if i < c.halfWinSize then previous x t i else x t (i - c.halfWinSize)) * c.winHanning i

/-- The transform of segment `t`. -/
def spectrum (x : ℕ → ℕ → F) (t : ℕ) : Fin (c.winSize / 2 + 1) → Cpx F := kiss.fftr (windowed c x t)

/-- The inverse transform of a row of coefficients over `win_size`. -/
def synthesis (row : ℕ → Cpx F) (j : ℕ) : F :=
  if hj : j < c.winSize then kiss.fftri (fun f => row f) ⟨j, hj⟩ / ofNat c.winSize else ofRat 0

variable {c} in
theorem synthesis_congr {row row' : ℕ → Cpx F} (h : ∀ f ≤ c.winSize / 2, row f = row' f) :
    synthesis c kiss row = synthesis c kiss row' := by
  have hrow : (fun f : Fin (c.winSize / 2 + 1) => row f) = fun f : Fin (c.winSize / 2 + 1) => row' f :=
    funext fun f => h f (Nat.le_of_lt_succ f.2)
  unfold synthesis
  rw [hrow]

/-! ## The inverse STFT -/

theorem shiftOutbuf_apply (h : Handle F) (p : ℕ) : (shiftOutbuf c h).outbuf p =
    if p < c.halfWinSize then h.outbuf (c.macroSize + p)
    else if p < c.halfWinSize + c.macroSize then ofRat 0 else h.outbuf p := by
  simp only [shiftOutbuf, memset, memcpy]
  by_cases h₁ : p < c.halfWinSize
  · rw [if_neg (by omega), if_pos (by omega), if_pos h₁, Nat.sub_zero]
  · rw [if_neg h₁]
    by_cases h₂ : p < c.halfWinSize + c.macroSize
    · rw [if_pos (by omega), if_pos h₂]
    · rw [if_neg (by omega), if_neg (by omega), if_neg h₂]

variable {c}

theorem addInverse_outbuf (hwin : c.winSize = 2 * c.halfWinSize) (i : ℕ) (h : Handle F) (p : ℕ) :
    (addInverse c kiss i h).outbuf p =
      addFrame c.halfWinSize (fun i => synthesis c kiss (h.stftCoef i)) p i (h.outbuf p) := by
  simp only [addInverse]
  rw [forLoop_cell 0 c.winSize (c.halfWinSize * i) fun j v =>
    v + writeRow (kiss.fftri fun j => h.stftCoef i j) h.inbufWin j / ofNat c.winSize]
  beta_reduce
  unfold addFrame
  by_cases hp : Covers c.halfWinSize i p
  · have hj : p - c.halfWinSize * i < c.winSize := by
      have := hp.2
      have := hp.1
      omega
    rw [if_pos hp, if_pos (by have := hp.1; omega)]
    simp only [synthesis, writeRow, dif_pos hj]
  · rw [if_neg hp, if_neg (by unfold Covers at hp; omega)]

/-- What the synthesis loops leave as it was. -/
structure SynthesisFrame (h h' : Handle F) : Prop where
  haveNblkTime : h'.haveNblkTime = h.haveNblkTime
  inbuf : h'.inbuf = h.inbuf
  stftCoef : h'.stftCoef = h.stftCoef

/-- **The synthesis of `n` rows.** -/
theorem outbuf_inverse (hwin : c.winSize = 2 * c.halfWinSize) (n : ℕ) (h : Handle F) :
    SynthesisFrame h (forLoop 0 n (addInverse c kiss) (shiftOutbuf c h)) ∧
    ∀ p, (forLoop 0 n (addInverse c kiss) (shiftOutbuf c h)).outbuf p =
      forLoop 0 n (addFrame c.halfWinSize (fun i => synthesis c kiss (h.stftCoef i)) p)
        ((shiftOutbuf c h).outbuf p) := by
  induction n with
  | zero => exact ⟨⟨rfl, rfl, rfl⟩, fun p => rfl⟩
  | succ n ih =>
      obtain ⟨hframe, hout⟩ := ih
      rw [forLoop_succ (Nat.zero_le n)]
      refine ⟨⟨hframe.haveNblkTime, hframe.inbuf, hframe.stftCoef⟩, fun p => ?_⟩
      rw [addInverse_outbuf kiss hwin, hframe.stftCoef, hout, forLoop_succ (Nat.zero_le n)]

/-! ## An accepted call -/

variable (c)

/-- An accepted call up to the block processing. -/
def stftHop (h : Handle F) (x : ℕ → F) : Handle F :=
  let inbuf := memcpy h.inbuf 0 h.inbuf c.halfWinSize c.halfWinSize
  let inbuf := memcpy inbuf c.halfWinSize x 0 c.halfWinSize
  let h := blockThresholdSTFT c kiss { h with inbuf := inbuf }
  { h with haveNblkTime := h.haveNblkTime + 1 }

variable {c}

theorem denoiseWith_accepted (core : Handle F → Handle F) (h : Handle F) (x : ℕ → F) :
    denoiseWith c kiss core h (some x) c.halfWinSize =
      if h.haveNblkTime + 1 ≠ maxNblkTime then (.needMoreSamples, stftHop c kiss h x)
      else (.canOutput, { blockThresholdInverseSTFT c kiss (core (stftHop c kiss h x)) with
        haveNblkTime := 0 }) :=
  if_neg (not_not.mpr rfl)

theorem denoiseWith_rejected (core : Handle F → Handle F) (h : Handle F) {inp : Option (ℕ → F)}
    {inLen : ℤ} (hrej : inp = none ∨ inLen ≠ c.halfWinSize) :
    denoiseWith c kiss core h inp inLen = (.errorParams, h) := by
  cases inp with
  | none => rfl
  | some x => exact if_pos (hrej.resolve_left (Option.some_ne_none x))

/-- The handle with other contents of `inbuf_win`. -/
def Handle.stage (h : Handle F) (w : ℕ → F) : Handle F := { h with inbufWin := w }

variable (c) in
/-- `inbuf_win` with the converted samples of an int16 hop. -/
def stagedS16 (h : Handle F) (x : ℕ → Int16) (j : ℕ) : F :=
  if j < c.halfWinSize then s16ToFloat (x j) else h.inbufWin j

theorem denoiseInt16_eq (h : Handle F) (x : ℕ → Int16) (inLen : ℤ) :
    blockThresholdDenoiseInt16 c kiss h (some x) inLen =
      if inLen ≠ c.halfWinSize then (.errorParams, h)
      else blockThresholdDenoiseFloat c kiss (h.stage (stagedS16 c h x)) (some (stagedS16 c h x)) inLen := by
  have hloop : forLoop 0 c.halfWinSize (fun i w => Function.update w i (s16ToFloat (x i))) h.inbufWin =
      stagedS16 c h x := forLoop_set c.halfWinSize (fun i => (s16ToFloat (x i) : F)) h.inbufWin
  simp only [blockThresholdDenoiseInt16, hloop]
  rfl

theorem stftHop_inbuf (h : Handle F) (x : ℕ → F) {j : ℕ} (hj : j < c.winSize)
    (hwin : c.winSize = 2 * c.halfWinSize) : (stftHop c kiss h x).inbuf j =
      if j < c.halfWinSize then h.inbuf (c.halfWinSize + j) else x (j - c.halfWinSize) := by
  simp only [stftHop, blockThresholdSTFT, memcpy]
  by_cases hlow : j < c.halfWinSize
  · rw [if_neg (by omega), if_pos (by omega), if_pos hlow, Nat.sub_zero]
  · rw [if_pos (by omega), if_neg hlow, Nat.zero_add]

theorem stftHop_stftCoef (h : Handle F) (x : ℕ → F) (r f : ℕ) : (stftHop c kiss h x).stftCoef r f =
    if r = h.haveNblkTime then
      writeRow (kiss.fftr fun i => (stftHop c kiss h x).inbuf i * c.winHanning i) (h.stftCoef r) f
    else h.stftCoef r f := by
  simp only [stftHop, blockThresholdSTFT]
  by_cases hr : r = h.haveNblkTime
  · subst hr
    rw [Function.update_self, if_pos rfl]
    congr 2
    funext i
    rw [forLoop_set]
    exact if_pos i.2
  · rw [Function.update_of_ne hr, if_neg hr]

/-! ## The state along a stream -/

variable (c) in
/-- The block processing `core` computes `K` on the eight transformed windows, and no more. -/
structure BlockProc (core : Handle F → Handle F) (K : (ℕ → ℕ → Cpx F) → ℕ → ℕ → Cpx F) : Prop where
  stftCoef : ∀ h, (core h).stftCoef = K h.stftCoef
  inbuf : ∀ h, (core h).inbuf = h.inbuf
  outbuf : ∀ h, (core h).outbuf = h.outbuf
  congr : ∀ {coef coef'}, SameWindows c coef coef' → SameWindows c (K coef) (K coef')

variable (c) in
theorem blockProc_core : BlockProc c (blockThresholdCore c) (coreCoef c) where
  stftCoef h := blockThresholdCore_stftCoef c h
  inbuf h := (blockThresholdCore_frame c h).2.1
  outbuf h := (blockThresholdCore_frame c h).2.2.2
  congr := coreCoef_congr

/-- The transforms of the windows `8 q, …, 8 q + 7`; the cells outside are those of `junk`. -/
def group (x : ℕ → ℕ → F) (junk : ℕ → ℕ → Cpx F) (q : ℕ) : ℕ → ℕ → Cpx F :=
  fun r => writeRow (spectrum c kiss x (maxNblkTime * q + r)) (junk r)

/-- Frame `t` of the output: window `t` after the processing of its group. -/
def outFrame (K : (ℕ → ℕ → Cpx F) → ℕ → ℕ → Cpx F) (x : ℕ → ℕ → F) (junk : ℕ → ℕ → Cpx F) (t : ℕ) :
    ℕ → F :=
  synthesis c kiss (K (group kiss x junk (t / maxNblkTime)) (t % maxNblkTime))

/-- The transforms of the windows `b + 8 q, …, b + 8 q + 7`; the cells outside are those of `junk`. -/
def groupFrom (x : ℕ → ℕ → F) (junk : ℕ → ℕ → Cpx F) (b q : ℕ) : ℕ → ℕ → Cpx F :=
  fun r => writeRow (spectrum c kiss x (b + (maxNblkTime * q + r))) (junk r)

/-- Frame `t` of the output where the hops are taken from hop `b` on, in groups of eight. -/
def frameFrom (K : (ℕ → ℕ → Cpx F) → ℕ → ℕ → Cpx F) (x : ℕ → ℕ → F) (junk : ℕ → ℕ → Cpx F) (b t : ℕ) : ℕ → F :=
  synthesis c kiss (K (groupFrom kiss x junk b (t / maxNblkTime)) (t % maxNblkTime))

theorem groupFrom_zero (x : ℕ → ℕ → F) (junk : ℕ → ℕ → Cpx F) (q : ℕ) :
    groupFrom kiss x junk 0 q = group kiss x junk q := by
  funext r
  rw [groupFrom, group, Nat.zero_add]

theorem frameFrom_zero (K : (ℕ → ℕ → Cpx F) → ℕ → ℕ → Cpx F) (x : ℕ → ℕ → F) (junk : ℕ → ℕ → Cpx F) :
    frameFrom kiss K x junk 0 = outFrame kiss K x junk := by
  funext t
  rw [frameFrom, groupFrom_zero, outFrame]

theorem frameFrom_at (K : (ℕ → ℕ → Cpx F) → ℕ → ℕ → Cpx F) (x : ℕ → ℕ → F) (junk : ℕ → ℕ → Cpx F) (b q : ℕ)
    {i : ℕ} (hi : i < maxNblkTime) : frameFrom kiss K x junk b (maxNblkTime * q + i) =
      synthesis c kiss (K (groupFrom kiss x junk b q) i) := by
  rw [frameFrom, Nat.mul_add_div (by decide), Nat.mul_add_mod, Nat.div_eq_of_lt hi, Nat.mod_eq_of_lt hi,
    Nat.add_zero]

theorem outFrame_at (K : (ℕ → ℕ → Cpx F) → ℕ → ℕ → Cpx F) (x : ℕ → ℕ → F) (junk : ℕ → ℕ → Cpx F) (q : ℕ)
    {i : ℕ} (hi : i < maxNblkTime) : outFrame kiss K x junk (maxNblkTime * q + i) =
      synthesis c kiss (K (group kiss x junk q) i) := by
  rw [← frameFrom_zero, frameFrom_at kiss K x junk 0 q hi, groupFrom_zero]

/-- After the `n` hops of `x` from hop `b` on, with output frames `y`, where nothing was pending before them. -/
structure StreamInv (y : ℕ → ℕ → F) (x : ℕ → ℕ → F) (b n : ℕ) (h : Handle F) : Prop where
  haveNblkTime : h.haveNblkTime = n % maxNblkTime
  inbuf : ∀ j < c.halfWinSize, h.inbuf (c.halfWinSize + j) = previous x (b + n) j
  stftCoef : ∀ r < n % maxNblkTime, ∀ f : Fin (c.winSize / 2 + 1),
    h.stftCoef r f = spectrum c kiss x (b + (maxNblkTime * (n / maxNblkTime) + r)) f
  tail : ∀ j < c.halfWinSize, h.outbuf (c.macroSize + j) =
    overlapAdd c.halfWinSize y (maxNblkTime * (n / maxNblkTime))
      (c.halfWinSize * (maxNblkTime * (n / maxNblkTime)) + j)

variable {kiss} {y x : ℕ → ℕ → F} {b n : ℕ} {h : Handle F}

theorem Fresh.streamInv (hwin : c.winSize = 2 * c.halfWinSize) (hf : Fresh c h) :
    StreamInv kiss y x 0 0 h where
  haveNblkTime := hf.haveNblkTime
  inbuf j hj := hf.inbuf _ (by omega)
  stftCoef r hr := absurd hr (Nat.not_lt_zero r)
  tail j hj := hf.outbuf _ (by omega)

/-- The transforms held after one more hop. -/
theorem StreamInv.stftHop_stftCoef (hs : StreamInv kiss y x b n h) (hwin : c.winSize = 2 * c.halfWinSize)
    {v : ℕ → F} (hv : ∀ j < c.halfWinSize, v j = x (b + n) j) {r : ℕ} (hr : r ≤ n % maxNblkTime)
    (f : Fin (c.winSize / 2 + 1)) : (stftHop c kiss h v).stftCoef r f =
      spectrum c kiss x (b + (maxNblkTime * (n / maxNblkTime) + r)) f := by
  rw [AudioProcess.stftHop_stftCoef, hs.haveNblkTime]
  by_cases he : r = n % maxNblkTime
  · subst he
    rw [if_pos rfl, writeRow, dif_pos f.2, Nat.div_add_mod, spectrum]
    congr 1
    funext i
    rw [stftHop_inbuf kiss h v i.2 hwin, windowed]
    have hi := i.2
    by_cases hlow : (i : ℕ) < c.halfWinSize
    · rw [if_pos hlow, if_pos hlow, hs.inbuf _ hlow]
    · rw [if_neg hlow, if_neg hlow, hv _ (by omega)]
  · rw [if_neg he, hs.stftCoef r (by omega)]

theorem stftHop_second_half (hwin : c.winSize = 2 * c.halfWinSize) {v : ℕ → F}
    (hv : ∀ j < c.halfWinSize, v j = x (b + n) j) {j : ℕ} (hj : j < c.halfWinSize) :
    (stftHop c kiss h v).inbuf (c.halfWinSize + j) = previous x (b + (n + 1)) j := by
  rw [stftHop_inbuf kiss h v (by omega) hwin, if_neg (by omega), Nat.add_sub_cancel_left, hv j hj]
  rfl

/-- **A hop that does not complete a macro-block.** -/
theorem StreamInv.pending (hs : StreamInv kiss y x b n h) (hwin : c.winSize = 2 * c.halfWinSize)
    {v : ℕ → F} (hv : ∀ j < c.halfWinSize, v j = x (b + n) j) (hn : (n + 1) % maxNblkTime ≠ 0) :
    StreamInv kiss y x b (n + 1) (stftHop c kiss h v) := by
  have hmod : (n + 1) % maxNblkTime = n % maxNblkTime + 1 := by unfold maxNblkTime at *; omega
  have hdiv : (n + 1) / maxNblkTime = n / maxNblkTime := by unfold maxNblkTime at *; omega
  refine ⟨?_, fun j hj => stftHop_second_half hwin hv hj, fun r hr f => ?_, fun j hj => ?_⟩
  · rw [hmod, ← hs.haveNblkTime]
    rfl
  · rw [hdiv]
    exact hs.stftHop_stftCoef hwin hv (by omega) f
  · rw [hdiv]
    exact hs.tail j hj

variable {core : Handle F → Handle F} {K : (ℕ → ℕ → Cpx F) → ℕ → ℕ → Cpx F} {junk : ℕ → ℕ → Cpx F}

/-- `outbuf` after the shift, as an overlap-add. -/
theorem shiftOutbuf_tail (ht : ∀ j < c.halfWinSize, h.outbuf (c.macroSize + j) =
      overlapAdd c.halfWinSize y n (c.halfWinSize * n + j)) {p : ℕ} (hp : p < c.macroSize + c.halfWinSize) :
    (shiftOutbuf c h).outbuf p = overlapAdd c.halfWinSize y n (c.halfWinSize * n + p) := by
  rw [shiftOutbuf_apply]
  split_ifs with h₁ h₂
  · exact ht p h₁
  · exact (overlapAdd_eq_zero (by omega)).symm
  · omega

/-- **A hop that completes a macro-block.** -/
theorem StreamInv.full (hs : StreamInv kiss (frameFrom kiss K x junk b) x b n h) (hcore : BlockProc c core K)
    (hwin : c.winSize = 2 * c.halfWinSize) {v : ℕ → F} (hv : ∀ j < c.halfWinSize, v j = x (b + n) j)
    (hn : (n + 1) % maxNblkTime = 0) :
    StreamInv kiss (frameFrom kiss K x junk b) x b (n + 1)
      { blockThresholdInverseSTFT c kiss (core (stftHop c kiss h v)) with haveNblkTime := 0 } ∧
    ∀ p < c.macroSize + c.halfWinSize,
      (blockThresholdInverseSTFT c kiss (core (stftHop c kiss h v))).outbuf p =
        overlapAdd c.halfWinSize (frameFrom kiss K x junk b) (n + 1)
          (c.halfWinSize * (maxNblkTime * (n / maxNblkTime)) + p) := by
  have hlast : n % maxNblkTime = 7 := by unfold maxNblkTime at *; omega
  have hn8 : n + 1 = maxNblkTime * (n / maxNblkTime) + maxNblkTime := by unfold maxNblkTime at *; omega
  have hdiv : (n + 1) / maxNblkTime = n / maxNblkTime + 1 := by unfold maxNblkTime at *; omega
  let q := n / maxNblkTime
  let g := core (stftHop c kiss h v)
  have hsame : SameWindows c (stftHop c kiss h v).stftCoef (groupFrom kiss x junk b q) := by
    intro r hr f hf
    have hf' : f < c.winSize / 2 + 1 := Nat.lt_succ_of_le hf
    rw [groupFrom, writeRow, dif_pos hf']
    exact hs.stftHop_stftCoef hwin hv (by unfold maxNblkTime at hr; omega) ⟨f, hf'⟩
  have hrow : ∀ i < maxNblkTime, synthesis c kiss (g.stftCoef i) =
      frameFrom kiss K x junk b (maxNblkTime * q + i) := by
    intro i hi
    rw [frameFrom_at kiss K x junk b q hi]
    refine synthesis_congr kiss fun f hf => ?_
    rw [hcore.stftCoef]
    exact hcore.congr hsame i hi f hf
  obtain ⟨hframe, hout⟩ := outbuf_inverse kiss hwin maxNblkTime g
  have hblock : ∀ p < c.macroSize + c.halfWinSize, (blockThresholdInverseSTFT c kiss g).outbuf p =
      overlapAdd c.halfWinSize (frameFrom kiss K x junk b) (n + 1)
        (c.halfWinSize * (maxNblkTime * q) + p) := by
    intro p hp
    have htail : ∀ j < c.halfWinSize, g.outbuf (c.macroSize + j) = overlapAdd c.halfWinSize
        (frameFrom kiss K x junk b) (maxNblkTime * q) (c.halfWinSize * (maxNblkTime * q) + j) := by
      intro j hj
      rw [hcore.outbuf]
      exact hs.tail j hj
    rw [hn8, overlapAdd_add, ← shiftOutbuf_tail htail hp]
    refine (hout p).trans (forLoop_congr _ fun i acc _ hi => ?_)
    simp only [addFrame, hrow i hi]
    rfl
  refine ⟨⟨hn.symm, fun j hj => ?_, fun r hr => absurd hr (by omega), fun j hj => ?_⟩, hblock⟩
  · show (blockThresholdInverseSTFT c kiss g).inbuf _ = _
    rw [blockThresholdInverseSTFT, hframe.inbuf, hcore.inbuf]
    exact stftHop_second_half hwin hv hj
  · show (blockThresholdInverseSTFT c kiss g).outbuf _ = _
    rw [hblock _ (by omega), hdiv, hn8]
    have hq : c.halfWinSize * (maxNblkTime * q) + (c.macroSize + j) =
        c.halfWinSize * (maxNblkTime * q + maxNblkTime) + j := by
      unfold Config.macroSize
      rw [Nat.mul_add]
      omega
    rw [hq, Nat.mul_succ]

/-! ## Windows of two samples -/

/-- The configuration for windows of 2 ms at 1000 Hz. -/
noncomputable def pairConfig : Config ℝ := initConfig (fun _ => 0) 2 1000

/-- The transforms of two samples. -/
noncomputable def pairKiss : Kiss ℝ 2 where
  fftr v f := if f = 0 then ⟨v 0 + v 1, 0⟩ else ⟨v 0 - v 1, 0⟩
  fftri z j := if j = 0 then (z 0).r + (z 1).r else (z 0).r - (z 1).r

/-- A handle whose memory is all zero. -/
noncomputable def zeroHandle : Handle ℝ where
  haveNblkTime := 0
  sureMatrix _ _ := 0
  inbuf _ := 0
  inbufWin _ := 0
  outbuf _ := 0
  stftCoef _ _ := ⟨0, 0⟩
  stftThre _ _ := ⟨0, 0⟩
  stftCoefBlock _ _ := ⟨0, 0⟩
  stftCoefBlockNorm _ _ := ⟨0, 0⟩

noncomputable def pairHandle : Handle ℝ := initHandle pairConfig zeroHandle

theorem pairConfig_winHanning :
    pairConfig.winHanning = makeHanningWindow (fun _ => 0) pairConfig.winSize := rfl

theorem fresh_pairHandle : Fresh pairConfig pairHandle := fresh_initHandle pairConfig zeroHandle

theorem pairHandle_init : blockThresholdInit true (fun _ => 0) zeroHandle 2 1000 =
    .ok (pairConfig, pairHandle) := rfl

end AudioProcess
