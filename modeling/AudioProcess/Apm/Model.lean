import AudioProcess.Apm.AudioBuffer
import AudioProcess.Lib.Mem

/-!
# The denoising module (`WebRtc_AMP_Port/libapm/src/apm_ns.cpp`)

`none` is what the code does not survive: a null pointer, a missing handle, a sample outside the buffer, an
exception. Assertions are compiled out.
`rnnoise_process_frame` is a parameter of the calls.

* `ApmNs`, `initRnnoiseModule`;
* `deinterleaveChannel`, `agcChannel`, `rnnoiseChannel`, `interleaveChannel`, and `processUseRnnoise`.
-/

namespace AudioProcess

open CFloat CLoop Mem

/-- `RNN_FRAME_SIZE`. -/
def rnnFrameSize : ℕ := 480

/-- `class APM_NS`, with the members that the rnnoise calls use. -/
structure ApmNs (F : Type) (V : Vendor) where
  agcHandles : List V.Agc
  rnnoiseHandles : List V.Rnn
  captureLevel : List ℤ
  captureBuffer : Option (AudioBuffer F V)
  frequency : ℕ
  channels : ℤ
  doAgc : Bool
  rnnBuf : Fin rnnFrameSize → F

variable {F : Type} [CFloat F] {V : Vendor}

/-! ## `initRnnoiseModule` -/

/-- `kAgcAdaptiveDigital`. -/
def kAgcAdaptiveDigital : ℕ := 3

/-- The configuration of the gain control. -/
def agcConfig : AgcConfig := ⟨1, 20, 3⟩

/-- The gain control of channel `i`. -/
def createAgc (V : Vendor) (frequency i : ℕ) : Option V.Agc := do
  let handle ← V.agcCreate i
  let handle ← V.agcInit i handle 0 255 kAgcAdaptiveDigital frequency
  V.agcSetConfig i handle agcConfig

/-- `initRnnoiseModule` for channel `i`. -/
def initRnnoiseChannel (frequency : ℕ) (doAgc : Bool) (i : ℕ) (r : Bool × ApmNs F V) : Bool × ApmNs F V :=
  if ¬ r.1 then r
  else
    let m := r.2
    if doAgc then
      match createAgc V frequency i with
      | none => (false, m)
      | some handle =>
          (true, { m with
            agcHandles := m.agcHandles ++ [handle]
            captureLevel := m.captureLevel ++ [0]
            rnnoiseHandles := m.rnnoiseHandles ++ [V.rnnoiseCreate i] })
    else (true, { m with rnnoiseHandles := m.rnnoiseHandles ++ [V.rnnoiseCreate i] })

/-- The capture buffer of `initRnnoiseModule`: the one that is there, or else a new one; `none` when
`new AudioBuffer` throws. -/
def rnnoiseBuffer (m : ApmNs F V) (inputFrames inputChannels : ℤ) : Option (AudioBuffer F V) :=
  match m.captureBuffer with
  | some buffer => some buffer
  | none =>
      if inputChannels < 0 then none
      else some (AudioBuffer.create V inputFrames.toNat inputChannels.toNat)

/-- `initRnnoiseModule`. -/
def initRnnoiseModule (m : ApmNs F V) (frequency : ℕ) (inputFrames inputChannels : ℤ) (doAgc : Bool) :
    Option (Bool × ApmNs F V) :=
  if frequency ≠ 48000 ∨ inputFrames ≠ 480 then some (false, m)
  else do
    let buffer ← rnnoiseBuffer m inputFrames inputChannels
    return forLoop 0 inputChannels.toNat (initRnnoiseChannel frequency doAgc)
      (true, { m with
        captureBuffer := some buffer
        frequency := frequency
        channels := inputChannels
        doAgc := doAgc })

/-! ## `processUseRnnoise` -/

/-- The module and the local variables of the loop over the channels. -/
structure Turn (F : Type) (V : Vendor) where
  apm : ApmNs F V
  buffer : AudioBuffer F V
  captureLevel : ℤ
  streamIsSaturated : UInt8

/-- Channel `i` of the interleaved samples into the buffer. -/
def deinterleaveChannel (data : ℕ → Int16) (samples n i : ℕ) (b : AudioBuffer F V) :
    Option (AudioBuffer F V) := do
  let b ← b.data i samples
  let row := forLoop 0 samples (fun j row => Function.update row j (data (i + n * j))) (b.channels.ibufData i)
  return { b with channels := b.channels.write i row }

/-- The gain control of channel `ch`. -/
def agcChannel (ch : ℕ) (t : Turn F V) : Option (Turn F V) := do
  let handle ← t.apm.agcHandles[ch]?
  let level ← t.apm.captureLevel[ch]?
  let b ← t.buffer.splitBands ch
  let r := V.agcProcess handle (b.bands ch) b.numBands (Int16.ofNat b.samplesPerSplitChannel) level
    t.captureLevel t.streamIsSaturated
  return {
    apm := { t.apm with
      agcHandles := t.apm.agcHandles.set ch r.handle
      captureLevel := t.apm.captureLevel.set ch r.outMicLevel }
    buffer := b.updateBands fun k s => s.write ch (r.out k)
    captureLevel := r.outMicLevel
    streamIsSaturated := r.saturationWarning }

/-- A function on frames, as `rnnoise_process_frame` is. -/
abbrev FrameProc (F : Type) (V : Vendor) : Type :=
  V.Rnn → (Fin rnnFrameSize → F) → V.Rnn × (Fin rnnFrameSize → F)

/-- The denoiser on channel `ch`. -/
def rnnoiseChannel (rnnoiseProcessFrame : FrameProc F V) (ch : ℕ) (t : Turn F V) : Option (Turn F V) := do
  let b ← t.buffer.data ch rnnFrameSize
  let inData := b.channels.ibufData ch
  let handle ← t.apm.rnnoiseHandles[ch]?
  let r := rnnoiseProcessFrame handle fun i => shortToFloat (inData i)
  return { t with
    apm := { t.apm with rnnoiseHandles := t.apm.rnnoiseHandles.set ch r.1, rnnBuf := r.2 }
    buffer := { b with channels := b.channels.write ch (writeRow (fun i => floatToShort (r.2 i)) inData) } }

/-- The loop over the channels at `ch`. -/
def processChannel (rnnoiseProcessFrame : FrameProc F V) (ch : ℕ) (t : Turn F V) : Option (Turn F V) := do
  let t ← if t.apm.doAgc then agcChannel ch t else some t
  rnnoiseChannel rnnoiseProcessFrame ch t

/-- Channel `i` of the buffer into the interleaved samples. -/
def interleaveChannel (samples n i : ℕ) (r : AudioBuffer F V × (ℕ → Int16)) :
    Option (AudioBuffer F V × (ℕ → Int16)) := do
  let b ← r.1.data i samples
  return (b, forLoop 0 samples (fun j data => Function.update data (i + n * j) (b.channels.ibufData i j)) r.2)

/-- The module splits its signal: it has gain control, and a rate with bands. -/
def ApmNs.Splits (m : ApmNs F V) : Prop := m.doAgc = true ∧ (m.frequency = 32000 ∨ m.frequency = 48000)

instance (m : ApmNs F V) : Decidable m.Splits := inferInstanceAs (Decidable (_ ∧ _))

/-- `processUseRnnoise`: the samples in place, and the module. -/
def processUseRnnoise (rnnoiseProcessFrame : FrameProc F V) (m : ApmNs F V) (data : ℕ → Int16)
    (samplesPerChannel inputChannels : ℤ) : Option ((ℕ → Int16) × ApmNs F V) := do
  let samples := samplesPerChannel.toNat
  let n := inputChannels.toNat
  let b ← m.captureBuffer
  let b ← forLoopM 0 n (deinterleaveChannel data samples n) b
  let b ← if m.Splits then b.splitIntoFrequencyBands else some b
  let t ← forLoopM 0 n (processChannel rnnoiseProcessFrame) ⟨m, b, 0, 0⟩
  let b ← if m.Splits then t.buffer.mergeFrequencyBands else some t.buffer
  let (b, data) ← forLoopM 0 n (interleaveChannel samples n) (b, data)
  return (data, { t.apm with captureBuffer := some b })

end AudioProcess
