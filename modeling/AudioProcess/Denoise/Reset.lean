import AudioProcess.Denoise.Windows
import AudioProcess.Lib.Run

/-!
# `blockThreshold_reset` erases history

Two handles that agree on `Sim`'s cells answer every call alike: the cells are the frame counter, the two
stream buffers and the transforms still pending. Everything else is written before it is read.

* `Sim.denoise`, `Sim.inverse`: the two-run steps; **`Sim.call`**: every call keeps `Sim`, with equal
  replies;
* `call_winHanning`: a call reads the window's `win_size` cells only;
* **`reset_erases_history`**.
-/

namespace AudioProcess

open CFloat CLoop Mem OverlapAdd Runs

variable {F : Type} [CFloat F]

/-- Two handles agree on what later calls can see. -/
structure Sim (c : Config F) (h h' : Handle F) : Prop where
  haveNblkTime : h.haveNblkTime = h'.haveNblkTime
  haveNblkTime_lt : h.haveNblkTime < maxNblkTime
  inbuf : ∀ j < c.winSize, h.inbuf j = h'.inbuf j
  outbuf : ∀ j < c.macroSize + c.halfWinSize, h.outbuf j = h'.outbuf j
  stftCoef : ∀ r < h.haveNblkTime, ∀ f ≤ c.winSize / 2, h.stftCoef r f = h'.stftCoef r f

variable {c : Config F} {kiss : Kiss F c.winSize} {h h' : Handle F}

theorem Fresh.sim (hf : Fresh c h) (hf' : Fresh c h') : Sim c h h' where
  haveNblkTime := hf.haveNblkTime.trans hf'.haveNblkTime.symm
  haveNblkTime_lt := hf.haveNblkTime ▸ Nat.succ_pos 7
  inbuf j hj := (hf.inbuf j hj).trans (hf'.inbuf j hj).symm
  outbuf j hj := (hf.outbuf j hj).trans (hf'.outbuf j hj).symm
  stftCoef r hr := absurd hr (hf.haveNblkTime ▸ Nat.not_lt_zero r)

/-! ## Synthesis -/

/-- The synthesis of `n` rows on which two handles agree. -/
theorem Sim.inverse (hwin : c.winSize = 2 * c.halfWinSize) {n : ℕ}
    (hout : ∀ j < c.macroSize + c.halfWinSize, h.outbuf j = h'.outbuf j)
    (hcoef : ∀ r < n, ∀ f ≤ c.winSize / 2, h.stftCoef r f = h'.stftCoef r f) :
    ∀ p < c.macroSize + c.halfWinSize,
      (forLoop 0 n (addInverse c kiss) (shiftOutbuf c h)).outbuf p =
        (forLoop 0 n (addInverse c kiss) (shiftOutbuf c h')).outbuf p := by
  intro p hp
  rw [(outbuf_inverse kiss hwin n h).2, (outbuf_inverse kiss hwin n h').2]
  have hshift : (shiftOutbuf c h).outbuf p = (shiftOutbuf c h').outbuf p := by
    rw [shiftOutbuf_apply, shiftOutbuf_apply]
    split_ifs with h₁ h₂
    · exact hout _ (by omega)
    · rfl
    · exact hout p hp
  rw [hshift]
  refine forLoop_congr _ fun i acc _ hi => ?_
  simp only [addFrame]
  rw [synthesis_congr kiss fun f hf => hcoef i hi f hf]

/-! ## Denoise -/

variable (kiss) in
theorem Sim.hop (hs : Sim c h h') (hwin : c.winSize = 2 * c.halfWinSize) {v v' : ℕ → F}
    (hv : ∀ j < c.halfWinSize, v j = v' j) :
    (∀ j < c.winSize, (stftHop c kiss h v).inbuf j = (stftHop c kiss h' v').inbuf j) ∧
    ∀ r ≤ h.haveNblkTime, ∀ f ≤ c.winSize / 2,
      (stftHop c kiss h v).stftCoef r f = (stftHop c kiss h' v').stftCoef r f := by
  have hin : ∀ j < c.winSize, (stftHop c kiss h v).inbuf j = (stftHop c kiss h' v').inbuf j := by
    intro j hj
    rw [stftHop_inbuf kiss h v hj hwin, stftHop_inbuf kiss h' v' hj hwin]
    split_ifs with hlow
    · exact hs.inbuf _ (by omega)
    · exact hv _ (by omega)
  refine ⟨hin, fun r hr f hf => ?_⟩
  rw [stftHop_stftCoef, stftHop_stftCoef, ← hs.haveNblkTime]
  by_cases he : r = h.haveNblkTime
  · have hf' : f < c.winSize / 2 + 1 := Nat.lt_succ_of_le hf
    rw [if_pos he, if_pos he, writeRow, writeRow, dif_pos hf', dif_pos hf']
    congr 2
    funext i
    rw [hin i i.2]
  · rw [if_neg he, if_neg he]
    exact hs.stftCoef r (by omega) f hf

variable (kiss) in
theorem Sim.denoise (hs : Sim c h h') (hwin : c.winSize = 2 * c.halfWinSize) {v v' : ℕ → F}
    (hv : ∀ j < c.halfWinSize, v j = v' j) (inLen : ℤ) :
    (blockThresholdDenoiseFloat c kiss h (some v) inLen).1 =
        (blockThresholdDenoiseFloat c kiss h' (some v') inLen).1 ∧
      Sim c (blockThresholdDenoiseFloat c kiss h (some v) inLen).2
        (blockThresholdDenoiseFloat c kiss h' (some v') inLen).2 := by
  unfold blockThresholdDenoiseFloat
  by_cases hlen : inLen = c.halfWinSize
  · subst hlen
    obtain ⟨hin, hcoef⟩ := hs.hop kiss hwin hv
    have hlt := hs.haveNblkTime_lt
    rw [denoiseWith_accepted, denoiseWith_accepted, ← hs.haveNblkTime]
    split_ifs with hpending
    · refine ⟨rfl, congrArg (· + 1) hs.haveNblkTime, ?_, hin, hs.outbuf, fun r hr => ?_⟩
      · show h.haveNblkTime + 1 < maxNblkTime
        omega
      · exact hcoef r (Nat.le_of_lt_succ hr)
    · -- the macro-block is complete: all eight rows agree before the core, hence after it
      have hrows : SameWindows c (stftHop c kiss h v).stftCoef (stftHop c kiss h' v').stftCoef :=
        fun r hr => hcoef r (by unfold maxNblkTime at *; omega)
      let g := blockThresholdCore c (stftHop c kiss h v)
      let g' := blockThresholdCore c (stftHop c kiss h' v')
      have hcore := blockProc_core c
      have hgrows : ∀ r < maxNblkTime, ∀ f ≤ c.winSize / 2, g.stftCoef r f = g'.stftCoef r f := by
        intro r hr f hf
        rw [hcore.stftCoef, hcore.stftCoef]
        exact hcore.congr hrows r hr f hf
      have hgout : ∀ j < c.macroSize + c.halfWinSize, g.outbuf j = g'.outbuf j := by
        intro j hj
        rw [hcore.outbuf, hcore.outbuf]
        exact hs.outbuf j hj
      refine ⟨rfl, rfl, Nat.succ_pos 7, fun j hj => ?_, Sim.inverse hwin hgout hgrows,
        fun r hr => absurd hr (Nat.not_lt_zero r)⟩
      show (blockThresholdInverseSTFT c kiss g).inbuf j = (blockThresholdInverseSTFT c kiss g').inbuf j
      rw [blockThresholdInverseSTFT, blockThresholdInverseSTFT,
        (outbuf_inverse kiss hwin maxNblkTime g).1.inbuf, (outbuf_inverse kiss hwin maxNblkTime g').1.inbuf,
        hcore.inbuf, hcore.inbuf]
      exact hin j hj
  · rw [denoiseWith_rejected kiss _ h (Or.inr hlen), denoiseWith_rejected kiss _ h' (Or.inr hlen)]
    exact ⟨rfl, hs⟩

variable (kiss) in
theorem Sim.denoiseInt16 (hs : Sim c h h') (hwin : c.winSize = 2 * c.halfWinSize)
    (inp : Option (ℕ → Int16)) (inLen : ℤ) :
    (blockThresholdDenoiseInt16 c kiss h inp inLen).1 = (blockThresholdDenoiseInt16 c kiss h' inp inLen).1 ∧
      Sim c (blockThresholdDenoiseInt16 c kiss h inp inLen).2
        (blockThresholdDenoiseInt16 c kiss h' inp inLen).2 := by
  cases inp with
  | none => exact ⟨rfl, hs⟩
  | some x =>
      rw [denoiseInt16_eq, denoiseInt16_eq]
      split_ifs with hlen
      · exact ⟨rfl, hs⟩
      · have hstaged : Sim c (h.stage (stagedS16 c h x)) (h'.stage (stagedS16 c h' x)) :=
          ⟨hs.haveNblkTime, hs.haveNblkTime_lt, hs.inbuf, hs.outbuf, hs.stftCoef⟩
        refine hstaged.denoise kiss hwin (fun j hj => ?_) inLen
        exact (if_pos hj).trans (if_pos hj).symm

/-! ## Output and flush -/

omit [CFloat F] in
theorem Sim.cells (hs : Sim c h h') {n : ℕ} (hn : n ≤ c.macroSize) (out : ℕ → F) :
    memcpy out 0 h.outbuf 0 n = memcpy out 0 h'.outbuf 0 n := by
  funext j
  unfold memcpy
  split_ifs with hj
  · exact hs.outbuf _ (by omega)
  · rfl

theorem Sim.cellsS16 (hs : Sim c h h') {n : ℕ} (hn : n ≤ c.macroSize) (out : ℕ → Int16) :
    convertS16 h.outbuf n out = convertS16 h'.outbuf n out := by
  unfold convertS16
  rw [forLoop_set, forLoop_set]
  funext j
  split_ifs with hj
  · rw [hs.outbuf j (by omega)]
  · rfl

variable (kiss) in
theorem Sim.flushWindows (hs : Sim c h h') (hwin : c.winSize = 2 * c.halfWinSize) :
    Sim c (flushWindows c kiss h) (flushWindows c kiss h') := by
  have hf := (outbuf_inverse kiss hwin h.haveNblkTime h).1
  have hf' := (outbuf_inverse kiss hwin h'.haveNblkTime h').1
  refine ⟨?_, ?_, fun j hj => ?_, fun j hj => ?_, fun r hr f hfr => ?_⟩
  · exact hf.haveNblkTime.trans (hs.haveNblkTime.trans hf'.haveNblkTime.symm)
  · exact hf.haveNblkTime.trans_lt hs.haveNblkTime_lt
  · unfold AudioProcess.flushWindows
    rw [hf.inbuf, hf'.inbuf]
    exact hs.inbuf j hj
  · unfold AudioProcess.flushWindows
    rw [← hs.haveNblkTime]
    exact Sim.inverse hwin hs.outbuf hs.stftCoef j hj
  · have hr' : r < h.haveNblkTime := hf.haveNblkTime ▸ hr
    unfold AudioProcess.flushWindows
    rw [hf.stftCoef, hf'.stftCoef]
    exact hs.stftCoef r hr' f hfr

omit [CFloat F] in
theorem Sim.flushSize (hs : Sim c h h') : flushSize c h = flushSize c h' := by
  unfold AudioProcess.flushSize
  rw [hs.haveNblkTime]

omit [CFloat F] in
theorem Sim.flushSize_le (hs : Sim c h h') : AudioProcess.flushSize c h ≤ c.macroSize := by
  unfold AudioProcess.flushSize Config.macroSize
  rw [Nat.mul_comm]
  exact Nat.mul_le_mul_left _ hs.haveNblkTime_lt.le

variable (kiss) in
/-- **Every call keeps `Sim`, with equal replies.** -/
theorem Sim.call (hs : Sim c h h') (hwin : c.winSize = 2 * c.halfWinSize) (a : Call F) :
    (call c kiss h a).1 = (call c kiss h' a).1 ∧ Sim c (call c kiss h a).2 (call c kiss h' a).2 := by
  cases a with
  | denoiseFloat inp inLen =>
      cases inp with
      | none => exact ⟨rfl, hs⟩
      | some v =>
          obtain ⟨hcode, hsim⟩ := hs.denoise kiss hwin (v := v) (fun _ _ => rfl) inLen
          exact ⟨congrArg Reply.code hcode, hsim⟩
  | denoiseInt16 inp inLen =>
      obtain ⟨hcode, hsim⟩ := hs.denoiseInt16 kiss hwin inp inLen
      exact ⟨congrArg Reply.code hcode, hsim⟩
  | outputFloat out outLen =>
      simp only [AudioProcess.call, blockThresholdOutputFloat, hs.cells le_rfl]
      exact ⟨trivial, hs⟩
  | outputInt16 out outLen =>
      simp only [AudioProcess.call, blockThresholdOutputInt16, hs.cellsS16 le_rfl]
      exact ⟨trivial, hs⟩
  | flushFloat out outLen =>
      have hflush := hs.flushWindows kiss hwin
      simp only [AudioProcess.call, blockThresholdFlushFloat, ← hs.flushSize]
      split_ifs with hlen
      · exact ⟨rfl, hs⟩
      · simp only [hflush.cells hs.flushSize_le]
        exact ⟨trivial, hflush⟩
  | flushInt16 out outLen =>
      have hflush := hs.flushWindows kiss hwin
      simp only [AudioProcess.call, blockThresholdFlushInt16, ← hs.flushSize]
      split_ifs with hlen
      · exact ⟨rfl, hs⟩
      · simp only [hflush.cellsS16 hs.flushSize_le]
        exact ⟨trivial, hflush⟩
  | reset => exact ⟨rfl, (fresh_reset c h).sim (fresh_reset c h')⟩

/-! ## The memory of the window -/

theorem stft_winHanning {w : ℕ → F} (hw : ∀ i < c.winSize, w i = c.winHanning i) (h : Handle F) :
    blockThresholdSTFT { c with winHanning := w } kiss h = blockThresholdSTFT c kiss h := by
  have hloop : forLoop 0 c.winSize (fun i m => Function.update m i (h.inbuf i * w i)) h.inbufWin =
      forLoop 0 c.winSize (fun i m => Function.update m i (h.inbuf i * c.winHanning i)) h.inbufWin :=
    forLoop_congr _ fun i m _ hi => by rw [hw i hi]
  simp only [blockThresholdSTFT, hloop]

/-- A call reads the first `win_size` cells of the window only. -/
theorem call_winHanning {w : ℕ → F} (hw : ∀ i < c.winSize, w i = c.winHanning i) (h : Handle F)
    (a : Call F) : call { c with winHanning := w } kiss h a = call c kiss h a := by
  have hdenoise : ∀ h inp inLen, blockThresholdDenoiseFloat { c with winHanning := w } kiss h inp inLen =
      blockThresholdDenoiseFloat c kiss h inp inLen := by
    intro h inp inLen
    cases inp with
    | none => rfl
    | some x =>
        simp only [blockThresholdDenoiseFloat, denoiseWith]
        rw [stft_winHanning hw]
        rfl
  cases a with
  | denoiseFloat inp inLen => simp only [call, hdenoise]
  | denoiseInt16 inp inLen =>
      cases inp with
      | none => rfl
      | some x =>
          simp only [call, blockThresholdDenoiseInt16, hdenoise]
          rfl
  | outputFloat out outLen => rfl
  | outputInt16 out outLen => rfl
  | flushFloat out outLen => rfl
  | flushInt16 out outLen => rfl
  | reset => rfl

theorem init_eq {mallocs : Bool} {junkWin : ℕ → F} {junk : Handle F} {timeWin fs : ℤ}
    {r : Config F × Handle F} (hinit : blockThresholdInit mallocs junkWin junk timeWin fs = .ok r) :
    0 < timeWin ∧ 0 < fs ∧ r = (initConfig junkWin timeWin fs,
      initHandle (initConfig junkWin timeWin fs) junk) := by
  unfold blockThresholdInit at hinit
  simp only at hinit
  split_ifs at hinit with h₁
  exact ⟨by omega, by omega, (Except.ok.inj hinit).symm⟩

/-- **Reset erases history.** A handle from `blockThreshold_init`, after any calls and a reset, answers any
further calls like a freshly initialised one, whatever the memory of either held before. -/
theorem reset_erases_history {timeWin fs : ℤ} {mallocs mallocs' : Bool} {junkWin junkWin' : ℕ → F}
    {junk junk' h h' : Handle F}
    (hinit : blockThresholdInit mallocs junkWin junk timeWin fs = .ok (initConfig junkWin timeWin fs, h))
    (hinit' : blockThresholdInit mallocs' junkWin' junk' timeWin fs =
      .ok (initConfig junkWin' timeWin fs, h'))
    (kiss : Kiss F (initWinSize timeWin fs).toNat) (past future : List (Call F)) :
    outputs (call (initConfig junkWin timeWin fs) kiss)
        (final (call (initConfig junkWin timeWin fs) kiss) h (past ++ [.reset])) future =
      outputs (call (initConfig junkWin' timeWin fs) kiss) h' future := by
  have hwin : (initConfig junkWin timeWin fs).winSize = 2 * (initConfig junkWin timeWin fs).halfWinSize :=
    initConfig_winSize junkWin (init_eq hinit).1 (init_eq hinit).2.1
  have hwindow : ∀ i < (initConfig junkWin timeWin fs).winSize,
      (initConfig junkWin' timeWin fs).winHanning i = (initConfig junkWin timeWin fs).winHanning i := by
    intro i hi
    exact (makeHanningWindow_apply hwin junkWin' hi).trans (makeHanningWindow_apply hwin junkWin hi).symm
  have hcall : call (initConfig junkWin' timeWin fs) kiss = call (initConfig junkWin timeWin fs) kiss :=
    funext fun h => funext fun a => call_winHanning hwindow h a
  have hfresh' : Fresh (initConfig junkWin timeWin fs) h' := by
    obtain rfl := congrArg Prod.snd (init_eq hinit').2.2
    exact fresh_initHandle _ junk'
  rw [hcall]
  refine outputs_eq_of_sim (Sim (initConfig junkWin timeWin fs)) (fun s t a hs => hs.call kiss hwin a) ?_
  rw [final, run_concat]
  exact (fresh_reset _ _).sim hfresh'

/-- Eight hops before the reset, and eight after it. -/
theorem reset_erases_history_pair :
    outputs (call pairConfig pairKiss) (final (call pairConfig pairKiss) pairHandle
        (List.replicate 8 (.denoiseFloat (some fun _ => 1) 1) ++ [.reset]))
        (List.replicate 8 (.denoiseFloat (some fun _ => 1) 1) ++ [.outputFloat (fun _ => 0) 8]) =
      outputs (call pairConfig pairKiss) pairHandle
        (List.replicate 8 (.denoiseFloat (some fun _ => 1) 1) ++ [.outputFloat (fun _ => 0) 8]) :=
  reset_erases_history pairHandle_init pairHandle_init pairKiss _ _

end AudioProcess
