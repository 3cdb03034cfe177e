import AudioProcess.Denoise.Threshold

/-!
# The denoiser's calls (`Denoise/BlockThresholding/src/audioDenoiseBlockTreshold.c`)

* `blockThresholdDenoiseFloat`, `blockThresholdDenoiseInt16`: one hop of samples;
* `blockThresholdOutputFloat`, `blockThresholdOutputInt16`: the finished macro-block;
* `blockThresholdFlushFloat`, `blockThresholdFlushInt16`: the pending windows;
* `Call`, `Reply`, `call`: a call on a handle, and what the caller sees of it.

The block processing is a parameter of `denoiseWith`; the program's is `blockThresholdCore`.
-/

namespace AudioProcess

open CFloat CLoop Mem

variable {F : Type} [CFloat F] (c : Config F) (kiss : Kiss F c.winSize)

/-- `blockThreshold_denoise_float` with the block processing `core`. -/
def denoiseWith (core : Handle F → Handle F) (h : Handle F) (inp : Option (ℕ → F)) (inLen : ℤ) :
    Mars × Handle F :=
  match inp with
  | none => (.errorParams, h)
  | some x =>
      if inLen ≠ c.halfWinSize then (.errorParams, h)
      else
        let inbuf := memcpy h.inbuf 0 h.inbuf c.halfWinSize c.halfWinSize
        let inbuf := memcpy inbuf c.halfWinSize x 0 c.halfWinSize
        let h := blockThresholdSTFT c kiss { h with inbuf := inbuf }
        let h := { h with haveNblkTime := h.haveNblkTime + 1 }
        if h.haveNblkTime ≠ maxNblkTime then (.needMoreSamples, h)
        else
          let h := blockThresholdInverseSTFT c kiss (core h)
          (.canOutput, { h with haveNblkTime := 0 })

/-- `blockThreshold_denoise_float`. -/
def blockThresholdDenoiseFloat (h : Handle F) (inp : Option (ℕ → F)) (inLen : ℤ) : Mars × Handle F :=
  denoiseWith c kiss (blockThresholdCore c) h inp inLen

/-- `blockThreshold_denoise_int16`: the samples are converted in `inbuf_win`, which is then the input. -/
def blockThresholdDenoiseInt16 (h : Handle F) (inp : Option (ℕ → Int16)) (inLen : ℤ) :
    Mars × Handle F :=
  match inp with
  | none => (.errorParams, h)
  | some x =>
      if inLen ≠ c.halfWinSize then (.errorParams, h)
      else
        let w := forLoop 0 c.halfWinSize (fun i w => Function.update w i (s16ToFloat (x i))) h.inbufWin
        let h := { h with inbufWin := w }
        blockThresholdDenoiseFloat c kiss h (some h.inbufWin) inLen

/-- `for (i = 0; i < n; i++) out[i] = FloatToS16(src[i])`. -/
def convertS16 (src : ℕ → F) (n : ℕ) (out : ℕ → Int16) : ℕ → Int16 :=
  forLoop 0 n (fun i out => Function.update out i (floatToS16 (src i))) out

/-- `blockThreshold_output_float` into the memory `out`. -/
def blockThresholdOutputFloat (h : Handle F) (out : ℕ → F) (outLen : ℤ) : ℤ × (ℕ → F) :=
  if outLen < c.macroSize then (0, out)
  else (c.macroSize, memcpy out 0 h.outbuf 0 c.macroSize)

/-- `blockThreshold_output_int16`. -/
def blockThresholdOutputInt16 (h : Handle F) (out : ℕ → Int16) (outLen : ℤ) : ℤ × (ℕ → Int16) :=
  if outLen < c.macroSize then (0, out)
  else (c.macroSize, convertS16 h.outbuf c.macroSize out)

/-- The pending windows into `outbuf`. -/
def flushWindows (h : Handle F) : Handle F :=
  forLoop 0 h.haveNblkTime (addInverse c kiss) (shiftOutbuf c h)

/-- `out_size` of the flush functions. -/
def flushSize (h : Handle F) : ℕ := h.haveNblkTime * c.halfWinSize

/-- `blockThreshold_flush_float`, with `out` the memory for the floats it copies. -/
def blockThresholdFlushFloat (h : Handle F) (out : ℕ → F) (outLen : ℤ) : ℤ × (ℕ → F) × Handle F :=
  if outLen < flushSize c h then (-1, out, h)
  else
    let h' := flushWindows c kiss h
    (flushSize c h, memcpy out 0 h'.outbuf 0 (flushSize c h), h')

/-- `blockThreshold_flush_int16`. -/
def blockThresholdFlushInt16 (h : Handle F) (out : ℕ → Int16) (outLen : ℤ) :
    ℤ × (ℕ → Int16) × Handle F :=
  if outLen < flushSize c h then (-1, out, h)
  else
    let h' := flushWindows c kiss h
    (flushSize c h, convertS16 h'.outbuf (flushSize c h) out, h')

/-! ## Calls -/

/-- A call on a handle. -/
inductive Call (F : Type)
  | denoiseFloat (inp : Option (ℕ → F)) (inLen : ℤ)
  | denoiseInt16 (inp : Option (ℕ → Int16)) (inLen : ℤ)
  | outputFloat (out : ℕ → F) (outLen : ℤ)
  | outputInt16 (out : ℕ → Int16) (outLen : ℤ)
  | flushFloat (out : ℕ → F) (outLen : ℤ)
  | flushInt16 (out : ℕ → Int16) (outLen : ℤ)
  | reset

/-- What a call returns, and the output memory as it leaves it. -/
inductive Reply (F : Type)
  | code (r : Mars)
  | floats (r : ℤ) (out : ℕ → F)
  | shorts (r : ℤ) (out : ℕ → Int16)

/-- One call. -/
def call (h : Handle F) : Call F → Reply F × Handle F
  | .denoiseFloat inp inLen =>
      let r := blockThresholdDenoiseFloat c kiss h inp inLen
      (.code r.1, r.2)
  | .denoiseInt16 inp inLen =>
      let r := blockThresholdDenoiseInt16 c kiss h inp inLen
      (.code r.1, r.2)
  | .outputFloat out outLen =>
      let r := blockThresholdOutputFloat c h out outLen
      (.floats r.1 r.2, h)
  | .outputInt16 out outLen =>
      let r := blockThresholdOutputInt16 c h out outLen
      (.shorts r.1 r.2, h)
  | .flushFloat out outLen =>
      let r := blockThresholdFlushFloat c kiss h out outLen
      (.floats r.1 r.2.1, r.2.2)
  | .flushInt16 out outLen =>
      let r := blockThresholdFlushInt16 c kiss h out outLen
      (.shorts r.1 r.2.1, r.2.2)
  | .reset => (.code .ok, blockThresholdReset c h)

end AudioProcess
