import AudioProcess.Lib.CFloat
import AudioProcess.Lib.Loop

/-!
# The capture buffer (`webrtc/modules/audio_processing`: `channel_buffer`, `audio_buffer`)

A channel is a row of a matrix of samples. `none` is the use of a null pointer, or of memory outside a
buffer. The third-party code is a parameter: `Vendor`.

* `IFChannelBuffer`: `refreshI`, `ibuf`, `ibufConst`;
* `AudioBuffer`: `data`, `splitBands`, `bands`, `splitIntoFrequencyBands`, `mergeFrequencyBands`.
-/

namespace AudioProcess

open CFloat

variable {F : Type}

/-! ## Samples -/

section Samples

variable [CFloat F]

/-- `FloatS16ToS16`. -/
def floatS16ToS16 (v : F) : Int16 :=
  if v > ofRat 0 then
    if v ≥ ofRat 32767 - ofRat 0.5 then 32767 else Int16.ofInt (trunc (v + ofRat 0.5))
  else if v ≤ ofRat (-32768) + ofRat 0.5 then -32768
  else Int16.ofInt (trunc (v - ofRat 0.5))

/-- A `short` assigned to a `float`. -/
def shortToFloat (v : Int16) : F := ofRat v.toInt

/-- A `float` assigned to a `short`. -/
def floatToShort (v : F) : Int16 := Int16.ofInt (trunc v)

end Samples

/-! ## `IFChannelBuffer` -/

/-- `IFChannelBuffer`: the same samples as integers and as floats, each up to date or not. -/
structure IFChannelBuffer (F : Type) where
  numChannels : ℕ
  samplesPerChannel : ℕ
  ivalid : Bool
  ibufData : ℕ → ℕ → Int16
  fvalid : Bool
  fbufData : ℕ → ℕ → F

namespace IFChannelBuffer

/-- The constructor of `IFChannelBuffer`. -/
def create [CFloat F] (samplesPerChannel numChannels : ℕ) : IFChannelBuffer F where
  numChannels := numChannels
  samplesPerChannel := samplesPerChannel
  ivalid := true
  ibufData _ _ := 0
  fvalid := true
  fbufData _ _ := ofRat 0

/-- The buffer has channel `ch`, with at least `n` samples. -/
def Has (b : IFChannelBuffer F) (ch n : ℕ) : Prop := ch < b.numChannels ∧ n ≤ b.samplesPerChannel

instance (b : IFChannelBuffer F) (ch n : ℕ) : Decidable (b.Has ch n) := inferInstanceAs (Decidable (_ ∧ _))

/-- `RefreshI`. -/
def refreshI [CFloat F] (b : IFChannelBuffer F) : IFChannelBuffer F :=
  if b.ivalid then b else { b with ibufData := fun ch j => floatS16ToS16 (b.fbufData ch j), ivalid := true }

/-- `ibuf()`, for writing. -/
def ibuf [CFloat F] (b : IFChannelBuffer F) : IFChannelBuffer F := { b.refreshI with fvalid := false }

/-- `ibuf_const()`, for reading. -/
def ibufConst [CFloat F] (b : IFChannelBuffer F) : IFChannelBuffer F := b.refreshI

/-- Write a channel through the pointer that `ibuf()` gave. -/
def write (b : IFChannelBuffer F) (ch : ℕ) (v : ℕ → Int16) : IFChannelBuffer F :=
  { b with ibufData := Function.update b.ibufData ch v }

section Sizes

variable [CFloat F] (b : IFChannelBuffer F)

@[simp] theorem numChannels_ibufConst : b.ibufConst.numChannels = b.numChannels := by
  unfold ibufConst refreshI
  split_ifs <;> rfl

@[simp] theorem samplesPerChannel_ibufConst : b.ibufConst.samplesPerChannel = b.samplesPerChannel := by
  unfold ibufConst refreshI
  split_ifs <;> rfl

@[simp] theorem numChannels_ibuf : b.ibuf.numChannels = b.numChannels := b.numChannels_ibufConst

@[simp] theorem samplesPerChannel_ibuf : b.ibuf.samplesPerChannel = b.samplesPerChannel :=
  b.samplesPerChannel_ibufConst

@[simp] theorem ivalid_ibuf : b.ibuf.ivalid = true := by
  unfold ibuf refreshI
  split_ifs with h
  · exact h
  · rfl

end Sizes

end IFChannelBuffer

/-! ## Third-party code -/

/-- What `WebRtcAgc_Process` leaves: the handle, the bands, `*outMicLevel` and `*saturationWarning`. -/
structure AgcResult (Agc : Type) where
  handle : Agc
  out : ℕ → ℕ → Int16
  outMicLevel : ℤ
  saturationWarning : UInt8

/-- `WebRtcAgcConfig`. -/
structure AgcConfig where
  limiterEnable : ℕ
  compressionGaindB : ℕ
  targetLevelDbfs : ℕ

/-- The splitting filter, the gain control and the creation of a denoiser, as functions on their states and
the buffers they are given. A `create` or `init` call takes the number of the channel it is made for, and
is `none` when the call fails. -/
structure Vendor where
  Filter : Type
  Agc : Type
  Rnn : Type
  newFilter : ℕ → Filter
  analysis : Filter → ℕ → (ℕ → ℕ → Int16) → Filter × (ℕ → ℕ → ℕ → Int16)
  synthesis : Filter → ℕ → (ℕ → ℕ → ℕ → Int16) → Filter × (ℕ → ℕ → Int16)
  agcCreate : ℕ → Option Agc
  agcInit : ℕ → Agc → ℤ → ℤ → ℕ → ℕ → Option Agc
  agcSetConfig : ℕ → Agc → AgcConfig → Option Agc
  agcProcess : Agc → (ℕ → Option (ℕ → Int16)) → ℕ → Int16 → ℤ → ℤ → UInt8 → AgcResult Agc
  rnnoiseCreate : ℕ → Rnn

/-! ## `AudioBuffer` -/

/-- `kSamplesPer16kHzChannel`. -/
def kSamplesPer16kHzChannel : ℕ := 160

/-- `kSamplesPer32kHzChannel`. -/
def kSamplesPer32kHzChannel : ℕ := 320

/-- `kSamplesPer48kHzChannel`. -/
def kSamplesPer48kHzChannel : ℕ := 480

/-- `AudioBuffer`: the full band, and the bands when there is a splitting filter. -/
structure AudioBuffer (F : Type) (V : Vendor) where
  channels : IFChannelBuffer F
  splitChannels : List (IFChannelBuffer F)
  splittingFilter : Option V.Filter
  samplesPerSplitChannel : ℕ
  numBands : ℕ

namespace AudioBuffer

variable [CFloat F] {V : Vendor}

/-- The constructor of `AudioBuffer`, with no resampling and no downmix. -/
def create (V : Vendor) (frames numChannels : ℕ) : AudioBuffer F V :=
  if frames = kSamplesPer32kHzChannel ∨ frames = kSamplesPer48kHzChannel then
    let band := IFChannelBuffer.create kSamplesPer16kHzChannel numChannels
    { channels := IFChannelBuffer.create frames numChannels
      splitChannels := if frames = kSamplesPer48kHzChannel then [band, band, band] else [band, band]
      splittingFilter := some (V.newFilter numChannels)
      samplesPerSplitChannel := kSamplesPer16kHzChannel
      numBands := frames / kSamplesPer16kHzChannel }
  else
    { channels := IFChannelBuffer.create frames numChannels
      splitChannels := []
      splittingFilter := none
      samplesPerSplitChannel := frames
      numBands := 1 }

/-- `data(ch)`, of which the caller uses the first `n` samples. -/
def data (b : AudioBuffer F V) (ch n : ℕ) : Option (AudioBuffer F V) :=
  if b.channels.Has ch n then some { b with channels := b.channels.ibuf } else none

/-- Change each buffer that `split_channels` gives: the bands, or the full band when there are none. -/
def updateBands (b : AudioBuffer F V) (f : ℕ → IFChannelBuffer F → IFChannelBuffer F) : AudioBuffer F V :=
  if b.splitChannels = [] then { b with channels := f 0 b.channels }
  else { b with splitChannels := b.splitChannels.mapIdx f }

/-- `split_bands_const(ch)` and `split_bands(ch)`: the buffers they leave. -/
def splitBands (b : AudioBuffer F V) (ch : ℕ) : Option (AudioBuffer F V) :=
  if ch < b.channels.numChannels then some (b.updateBands fun _ s => s.ibuf) else none

/-- The bands of channel `ch`; a band that is not there is a null pointer. -/
def bands (b : AudioBuffer F V) (ch : ℕ) : ℕ → Option (ℕ → Int16) := fun k =>
  if b.splitChannels = [] then (if k = 0 then some (b.channels.ibufData ch) else none)
  else b.splitChannels[k]?.map fun s => s.ibufData ch

/-- `SplitIntoFrequencyBands`. -/
def splitIntoFrequencyBands (b : AudioBuffer F V) : Option (AudioBuffer F V) := do
  let filter ← b.splittingFilter
  let channels := b.channels.ibufConst
  let r := V.analysis filter b.splitChannels.length channels.ibufData
  return { b with
    channels := channels
    splitChannels := b.splitChannels.mapIdx fun k s => { s.ibuf with ibufData := r.2 k }
    splittingFilter := some r.1 }

/-- The integer samples of the bands. -/
def splitData (splitChannels : List (IFChannelBuffer F)) (k ch j : ℕ) : Int16 :=
  match splitChannels[k]? with
  | some s => s.ibufConst.ibufData ch j
  | none => 0

/-- `MergeFrequencyBands`. -/
def mergeFrequencyBands (b : AudioBuffer F V) : Option (AudioBuffer F V) := do
  let filter ← b.splittingFilter
  let r := V.synthesis filter b.splitChannels.length (splitData b.splitChannels)
  return { b with
    channels := { b.channels.ibuf with ibufData := r.2 }
    splitChannels := b.splitChannels.map fun s => s.ibufConst
    splittingFilter := some r.1 }

end AudioBuffer

end AudioProcess
