import AudioProcess.Denoise.Windows
import AudioProcess.Lib.Run

/-!
# The int16 API and the float API

* `denoiseThrough`: `blockThreshold_denoise_float` reading its input behind a pointer, when it reads it;
  `denoiseInt16_through`: the pointer may be `inbuf_win`;
* `SampleCall`: a call of either API; `Converted`: its two replies;
* `denoiseInt16_eq_float`: what is staged in `inbuf_win` is overwritten;
* `call_converted`: one call; **`int16_eq_float`**: any number of them.
-/

namespace AudioProcess

open CFloat CLoop Mem Runs

variable {F : Type} [CFloat F] {c : Config F} {kiss : Kiss F c.winSize}

/-! ## The staged input -/

variable (c kiss) in
/-- `blockThreshold_denoise_float` where `in` points to what `src` says, in the handle as it is by then. -/
def denoiseThrough (h : Handle F) (src : Handle F → ℕ → F) (inLen : ℤ) : Mars × Handle F :=
  if inLen ≠ c.halfWinSize then (.errorParams, h)
  else
    let h := { h with inbuf := memcpy h.inbuf 0 h.inbuf c.halfWinSize c.halfWinSize }
    let h := { h with inbuf := memcpy h.inbuf c.halfWinSize (src h) 0 c.halfWinSize }
    let h := blockThresholdSTFT c kiss h
    let h := { h with haveNblkTime := h.haveNblkTime + 1 }
    if h.haveNblkTime ≠ maxNblkTime then (.needMoreSamples, h)
    else
      let h := blockThresholdInverseSTFT c kiss (blockThresholdCore c h)
      (.canOutput, { h with haveNblkTime := 0 })

/-- The input is read before anything is written to `inbuf_win`. -/
theorem denoiseInt16_through (h : Handle F) (x : ℕ → Int16) (inLen : ℤ) :
    blockThresholdDenoiseInt16 c kiss h (some x) inLen =
      if inLen ≠ c.halfWinSize then (.errorParams, h)
      else denoiseThrough c kiss (h.stage (stagedS16 c h x)) Handle.inbufWin inLen :=
  denoiseInt16_eq kiss h x inLen

/-- The STFT writes all of the window, and reads nothing of what was there. -/
theorem blockThresholdSTFT_stage (kiss : Kiss F c.winSize) (h : Handle F) {w : ℕ → F}
    (hw : ∀ j, c.winSize ≤ j → w j = h.inbufWin j) :
    blockThresholdSTFT c kiss (h.stage w) = blockThresholdSTFT c kiss h := by
  have hloop : forLoop 0 c.winSize (fun i w => Function.update w i (h.inbuf i * c.winHanning i)) w =
      forLoop 0 c.winSize (fun i w => Function.update w i (h.inbuf i * c.winHanning i)) h.inbufWin := by
    rw [forLoop_set, forLoop_set]
    funext j
    split_ifs with hj
    · rfl
    · exact hw j (not_lt.mp hj)
  simp only [blockThresholdSTFT, Handle.stage, hloop]

theorem stftHop_stage (h : Handle F) (x : ℕ → Int16) : stftHop c kiss (h.stage (stagedS16 c h x)) (stagedS16 c h x) =
    stftHop c kiss h fun j => s16ToFloat (x j) := by
  have hhalf : c.halfWinSize ≤ c.winSize := Nat.div_le_self _ _
  have hin : ∀ m, memcpy m c.halfWinSize (stagedS16 c h x) 0 c.halfWinSize =
      memcpy m c.halfWinSize (fun j => s16ToFloat (x j)) 0 c.halfWinSize := by
    intro m
    funext j
    simp only [memcpy]
    split_ifs with hj
    · exact if_pos (by omega)
    · rfl
  have hstft : ∀ m, blockThresholdSTFT c kiss { h with inbuf := m, inbufWin := stagedS16 c h x } =
      blockThresholdSTFT c kiss { h with inbuf := m } := fun m =>
    blockThresholdSTFT_stage kiss { h with inbuf := m } fun j hj => if_neg (by omega)
  simp only [stftHop, Handle.stage, hin, hstft]

/-- **A hop of int16 samples is a hop of the converted samples.** -/
theorem denoiseInt16_eq_float (h : Handle F) (inp : Option (ℕ → Int16)) (inLen : ℤ) :
    blockThresholdDenoiseInt16 c kiss h inp inLen =
      blockThresholdDenoiseFloat c kiss h (inp.map fun x j => s16ToFloat (x j)) inLen := by
  cases inp with
  | none => rfl
  | some x =>
      rw [denoiseInt16_eq, Option.map_some]
      by_cases hlen : inLen = c.halfWinSize
      · subst hlen
        rw [if_neg (not_not.mpr rfl), blockThresholdDenoiseFloat, blockThresholdDenoiseFloat, denoiseWith_accepted,
          denoiseWith_accepted, stftHop_stage]
        rfl
      · rw [if_pos hlen, blockThresholdDenoiseFloat, denoiseWith_rejected kiss _ h (.inr hlen)]

/-! ## Calls -/

/-- A call of either API: its samples, or the memory it may write to in both. -/
inductive SampleCall (F : Type)
  | denoise (inp : Option (ℕ → Int16)) (inLen : ℤ)
  | output (shorts : ℕ → Int16) (floats : ℕ → F) (outLen : ℤ)
  | flush (shorts : ℕ → Int16) (floats : ℕ → F) (outLen : ℤ)
  | reset

/-- The call of the int16 API. -/
def SampleCall.int16 : SampleCall F → Call F
  | .denoise inp inLen => .denoiseInt16 inp inLen
  | .output shorts _ outLen => .outputInt16 shorts outLen
  | .flush shorts _ outLen => .flushInt16 shorts outLen
  | .reset => .reset

/-- The call of the float API, on the converted samples. -/
def SampleCall.float : SampleCall F → Call F
  | .denoise inp inLen => .denoiseFloat (inp.map fun x j => s16ToFloat (x j)) inLen
  | .output _ floats outLen => .outputFloat floats outLen
  | .flush _ floats outLen => .flushFloat floats outLen
  | .reset => .reset

/-- The same returned value, and every sample that was put out is converted from its counterpart. -/
def Converted : Reply F → Reply F → Prop
  | .code r, .code r' => r = r'
  | .shorts r out, .floats r' out' => r = r' ∧ ∀ i : ℕ, (i : ℤ) < r → out i = floatToS16 (out' i)
  | _, _ => False

theorem converted_cells (src : ℕ → F) (n : ℕ) (shorts : ℕ → Int16) (floats : ℕ → F) :
    Converted (.shorts n (convertS16 src n shorts)) (.floats n (memcpy floats 0 src 0 n)) := by
  refine ⟨rfl, fun i hi => ?_⟩
  have hi' : i < n := by exact_mod_cast hi
  rw [convertS16, forLoop_set, memcpy]
  simp only [if_pos hi', Nat.zero_le, Nat.zero_add, true_and, Nat.sub_zero]

variable (c kiss) in
/-- **One call of either API.** -/
theorem call_converted (h : Handle F) (a : SampleCall F) :
    Converted (call c kiss h a.int16).1 (call c kiss h a.float).1 ∧
      (call c kiss h a.int16).2 = (call c kiss h a.float).2 := by
  cases a with
  | denoise inp inLen =>
      simp only [SampleCall.int16, SampleCall.float, call, denoiseInt16_eq_float]
      exact ⟨rfl, trivial⟩
  | output shorts floats outLen =>
      refine ⟨?_, rfl⟩
      simp only [SampleCall.int16, SampleCall.float, call, blockThresholdOutputInt16, blockThresholdOutputFloat]
      split_ifs with hlen
      · exact ⟨rfl, fun i hi => absurd hi (by omega)⟩
      · exact converted_cells h.outbuf c.macroSize shorts floats
  | flush shorts floats outLen =>
      simp only [SampleCall.int16, SampleCall.float, call, blockThresholdFlushInt16, blockThresholdFlushFloat]
      split_ifs with hlen
      · exact ⟨⟨rfl, fun i hi => absurd hi (by omega)⟩, rfl⟩
      · exact ⟨converted_cells _ (flushSize c h) shorts floats, rfl⟩
  | reset => exact ⟨rfl, rfl⟩

/-- **The int16 API is the float API on converted samples**: over any calls, from any handle, the handles are the same
after each of them, and so are the returned values; the int16 output is the converted float output. -/
theorem int16_eq_float (c : Config F) (kiss : Kiss F c.winSize) (h : Handle F) (calls : List (SampleCall F)) :
    (∀ n, final (call c kiss) h ((calls.take n).map SampleCall.int16) =
      final (call c kiss) h ((calls.take n).map SampleCall.float)) ∧
    List.Forall₂ Converted (outputs (call c kiss) h (calls.map SampleCall.int16))
      (outputs (call c kiss) h (calls.map SampleCall.float)) := by
  have hrun : ∀ calls : List (SampleCall F),
      List.Forall₂ Converted (outputs (call c kiss) h (calls.map SampleCall.int16))
        (outputs (call c kiss) h (calls.map SampleCall.float)) ∧
      final (call c kiss) h (calls.map SampleCall.int16) = final (call c kiss) h (calls.map SampleCall.float) := by
    intro calls
    refine outputs_forall₂ (fun h h' => h = h') (P := fun a b => ∃ x : SampleCall F, a = x.int16 ∧ b = x.float)
      ?_ ?_ rfl
    · rintro h _ _ _ rfl ⟨x, rfl, rfl⟩
      exact call_converted c kiss h x
    · rw [List.forall₂_map_left_iff, List.forall₂_map_right_iff, List.forall₂_same]
      exact fun x _ => ⟨x, rfl, rfl⟩
  exact ⟨fun n => (hrun (calls.take n)).2, (hrun calls).1⟩

end AudioProcess
