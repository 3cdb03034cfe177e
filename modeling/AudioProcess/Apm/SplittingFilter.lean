import AudioProcess.Apm.AudioBuffer
import AudioProcess.Apm.Qmf
import AudioProcess.Lib.Mem
import AudioProcess.Lib.Related

/-!
# The splitting filter (`splitting_filter.cc`)

* `TwoBandsStates`, `SplittingFilter`, `twoBandsAnalysis`, `twoBandsSynthesis`, `threeBandsAnalysis`,
  `threeBandsSynthesis`, `analysis`, `synthesis`: the class, with its scratch buffer; `none` stands for an overflow
  or an access outside an array;
* `ChannelFilter`, `analyse`, `synthesise`: one channel, without the buffer;
* `analysis_eq`, `synthesis_eq`: a call is one of every channel;
* **`splittingFilter_channels`**: so is every run of calls, whatever was in the memory that the code does not
  initialise.
-/

namespace AudioProcess

open Allpass CInt CLoop Mem

/-! ## The code -/

/-- `kSamplesPer64kHzChannel`. -/
def kSamplesPer64kHzChannel : ℕ := 640

/-- `PushSincResampler`, by its constructor and by `Resample` on the samples of a source. -/
structure Resampler where
  State : Type
  new : ℕ → ℕ → State
  resample : State → List Int16 → State × (ℕ → Int16)

/-- `TwoBandsStates`. -/
structure TwoBandsStates where
  analysis : Branches
  synthesis : Branches

/-- The constructor of `TwoBandsStates`. -/
def TwoBandsStates.zero : TwoBandsStates := ⟨.zero, .zero⟩

/-- The samples of channels. -/
abbrev Rows : Type := ℕ → ℕ → Int16

/-- The samples of the channels of bands. -/
abbrev Bands : Type := ℕ → Rows

/-- Set a row of a band. -/
def Bands.write (m : Bands) (band ch : ℕ) (row : ℕ → Int16) : Bands :=
  Function.update m band (Function.update (m band) ch row)

/-- `SplittingFilter`. -/
structure SplittingFilter (R : Resampler) where
  channels : ℕ
  twoBandsStates : ℕ → TwoBandsStates
  band1States : ℕ → TwoBandsStates
  band2States : ℕ → TwoBandsStates
  analysisResamplers : ℕ → R.State
  synthesisResamplers : ℕ → R.State
  intBuffer : Option (ℕ → Int16)

namespace SplittingFilter

variable {R : Resampler}

/-- The constructor of `SplittingFilter`. -/
def create (R : Resampler) (channels : ℕ) : SplittingFilter R where
  channels := channels
  twoBandsStates _ := .zero
  band1States _ := .zero
  band2States _ := .zero
  analysisResamplers _ := R.new kSamplesPer48kHzChannel kSamplesPer64kHzChannel
  synthesisResamplers _ := R.new kSamplesPer64kHzChannel kSamplesPer48kHzChannel
  intBuffer := none

/-- A turn of `TwoBandsAnalysis`. -/
def twoBandsAnalysisTurn (locals : ℕ → QmfLocals) (inData : Rows) (samplesPerChannel i : ℕ)
    (p : SplittingFilter R × Bands) : Option (SplittingFilter R × Bands) := do
  let (f, bands) := p
  let s := f.twoBandsStates i
  let (low, high, one, two) ← analysisQMF (locals i) (inData i) samplesPerChannel (bands 0 i) (bands 1 i)
    s.analysis.one s.analysis.two
  return ({ f with twoBandsStates := Function.update f.twoBandsStates i { s with analysis := ⟨one, two⟩ } },
    (bands.write 0 i low).write 1 i high)

/-- `TwoBandsAnalysis`. -/
def twoBandsAnalysis (locals : ℕ → QmfLocals) (inData : Rows) (samplesPerChannel : ℕ) (f : SplittingFilter R)
    (bands : Bands) : Option (SplittingFilter R × Bands) :=
  forLoopM 0 f.channels (twoBandsAnalysisTurn locals inData samplesPerChannel) (f, bands)

/-- A turn of `TwoBandsSynthesis`. -/
def twoBandsSynthesisTurn (locals : ℕ → QmfLocals) (bands : Bands) (samplesPerBand i : ℕ)
    (p : SplittingFilter R × Rows) : Option (SplittingFilter R × Rows) := do
  let (f, outData) := p
  let s := f.twoBandsStates i
  let (out, one, two) ← synthesisQMF (locals i) (bands 0 i) (bands 1 i) samplesPerBand (outData i)
    s.synthesis.one s.synthesis.two
  return ({ f with twoBandsStates := Function.update f.twoBandsStates i { s with synthesis := ⟨one, two⟩ } },
    Function.update outData i out)

/-- `TwoBandsSynthesis`. -/
def twoBandsSynthesis (locals : ℕ → QmfLocals) (bands : Bands) (samplesPerBand : ℕ) (f : SplittingFilter R)
    (outData : Rows) : Option (SplittingFilter R × Rows) :=
  forLoopM 0 f.channels (twoBandsSynthesisTurn locals bands samplesPerBand) (f, outData)

/-- `InitBuffers`, with what the new memory holds. -/
def initBuffers (fresh : ℕ → Int16) (f : SplittingFilter R) : SplittingFilter R :=
  match f.intBuffer with
  | none => { f with intBuffer := some fresh }
  | some _ => f

/-- A turn of `ThreeBandsAnalysis`. The filters read all their input before they write, so it may lie in the buffer that
they write to. -/
def threeBandsAnalysisTurn (locals : ℕ → ℕ → QmfLocals) (inData : Rows) (i : ℕ) (p : SplittingFilter R × Bands) :
    Option (SplittingFilter R × Bands) := do
  let (f, bands) := p
  let buffer ← f.intBuffer
  let (up, out) := R.resample (f.analysisResamplers i) (readCells (inData i) 0 kSamplesPer48kHzChannel)
  let buffer := memcpy buffer 0 out 0 kSamplesPer64kHzChannel
  let s := f.twoBandsStates i
  let (low, high, one, two) ← analysisQMF (locals i 0) buffer kSamplesPer64kHzChannel buffer
    (fun k => buffer (kSamplesPer32kHzChannel + k)) s.analysis.one s.analysis.two
  let buffer := memcpy (memcpy buffer 0 low 0 kSamplesPer32kHzChannel) kSamplesPer32kHzChannel high 0
    kSamplesPer32kHzChannel
  let s₁ := f.band1States i
  let (low, high, one₁, two₁) ← analysisQMF (locals i 1) buffer kSamplesPer32kHzChannel (bands 0 i) (bands 1 i)
    s₁.analysis.one s₁.analysis.two
  let bands := (bands.write 0 i low).write 1 i high
  let s₂ := f.band2States i
  let (low, high, one₂, two₂) ← analysisQMF (locals i 2) (fun k => buffer (kSamplesPer32kHzChannel + k))
    kSamplesPer32kHzChannel buffer (bands 2 i) s₂.analysis.one s₂.analysis.two
  let buffer := memcpy buffer 0 low 0 kSamplesPer16kHzChannel
  return ({ f with
      twoBandsStates := Function.update f.twoBandsStates i { s with analysis := ⟨one, two⟩ }
      band1States := Function.update f.band1States i { s₁ with analysis := ⟨one₁, two₁⟩ }
      band2States := Function.update f.band2States i { s₂ with analysis := ⟨one₂, two₂⟩ }
      analysisResamplers := Function.update f.analysisResamplers i up
      intBuffer := some buffer },
    bands.write 2 i high)

/-- `ThreeBandsAnalysis`. -/
def threeBandsAnalysis (locals : ℕ → ℕ → QmfLocals) (fresh : ℕ → Int16) (inData : Rows) (f : SplittingFilter R)
    (bands : Bands) : Option (SplittingFilter R × Bands) :=
  forLoopM 0 f.channels (threeBandsAnalysisTurn locals inData) (f.initBuffers fresh, bands)

/-- A turn of `ThreeBandsSynthesis`. -/
def threeBandsSynthesisTurn (locals : ℕ → ℕ → QmfLocals) (bands : Bands) (i : ℕ) (p : SplittingFilter R × Rows) :
    Option (SplittingFilter R × Rows) := do
  let (f, outData) := p
  let buffer ← f.intBuffer
  let buffer := memset buffer 0 0 kSamplesPer64kHzChannel
  let s₁ := f.band1States i
  let (out, one₁, two₁) ← synthesisQMF (locals i 0) (bands 0 i) (bands 1 i) kSamplesPer16kHzChannel buffer
    s₁.synthesis.one s₁.synthesis.two
  let buffer := memcpy buffer 0 out 0 kSamplesPer32kHzChannel
  let s₂ := f.band2States i
  let (out, one₂, two₂) ← synthesisQMF (locals i 1) (fun k => buffer (kSamplesPer32kHzChannel + k)) (bands 2 i)
    kSamplesPer16kHzChannel (fun k => buffer (kSamplesPer32kHzChannel + k)) s₂.synthesis.one s₂.synthesis.two
  let buffer := memcpy buffer kSamplesPer32kHzChannel out 0 kSamplesPer32kHzChannel
  let s := f.twoBandsStates i
  let (out, one, two) ← synthesisQMF (locals i 2) buffer (fun k => buffer (kSamplesPer32kHzChannel + k))
    kSamplesPer32kHzChannel buffer s.synthesis.one s.synthesis.two
  let buffer := memcpy buffer 0 out 0 kSamplesPer64kHzChannel
  let (down, out) := R.resample (f.synthesisResamplers i) (readCells buffer 0 kSamplesPer64kHzChannel)
  return ({ f with
      twoBandsStates := Function.update f.twoBandsStates i { s with synthesis := ⟨one, two⟩ }
      band1States := Function.update f.band1States i { s₁ with synthesis := ⟨one₁, two₁⟩ }
      band2States := Function.update f.band2States i { s₂ with synthesis := ⟨one₂, two₂⟩ }
      synthesisResamplers := Function.update f.synthesisResamplers i down
      intBuffer := some buffer },
    Function.update outData i (memcpy (outData i) 0 out 0 kSamplesPer48kHzChannel))

/-- `ThreeBandsSynthesis`. -/
def threeBandsSynthesis (locals : ℕ → ℕ → QmfLocals) (fresh : ℕ → Int16) (bands : Bands) (f : SplittingFilter R)
    (outData : Rows) : Option (SplittingFilter R × Rows) :=
  forLoopM 0 f.channels (threeBandsSynthesisTurn locals bands) (f.initBuffers fresh, outData)

/-- `Analysis`, into `numBands` bands. -/
def analysis (locals : ℕ → ℕ → QmfLocals) (fresh : ℕ → Int16) (inData : Rows) (samplesPerChannel numBands : ℕ)
    (f : SplittingFilter R) (bands : Bands) : Option (SplittingFilter R × Bands) :=
  if numBands = 2 then f.twoBandsAnalysis (fun i => locals i 0) inData samplesPerChannel bands
  else if numBands = 3 then f.threeBandsAnalysis locals fresh inData bands
  else some (f, bands)

/-- `Synthesis`, from `numBands` bands. -/
def synthesis (locals : ℕ → ℕ → QmfLocals) (fresh : ℕ → Int16) (bands : Bands) (samplesPerBand numBands : ℕ)
    (f : SplittingFilter R) (outData : Rows) : Option (SplittingFilter R × Rows) :=
  if numBands = 2 then f.twoBandsSynthesis (fun i => locals i 0) bands samplesPerBand outData
  else if numBands = 3 then f.threeBandsSynthesis locals fresh bands outData
  else some (f, outData)

end SplittingFilter

/-! ## One channel -/

/-- Reachable states. -/
structure TwoBandsStates.Reachable (s : TwoBandsStates) : Prop where
  analysis : s.analysis.Analysing
  synthesis : s.synthesis.Synthesising

theorem TwoBandsStates.reachable_zero : TwoBandsStates.zero.Reachable :=
  ⟨Branches.analysing_zero, Branches.synthesising_zero⟩

/-- What a splitting filter has for one channel: the states of the first split and of the two second ones, and the
resamplers. -/
structure ChannelFilter (R : Resampler) where
  whole : TwoBandsStates
  lower : TwoBandsStates
  upper : TwoBandsStates
  up : R.State
  down : R.State

/-- The sizes that the filter can take: two bands of up to `kMaxBandFrameLength` samples, or three of `160`. -/
def BandSizes (numBands n : ℕ) : Prop :=
  numBands = 2 ∧ 0 < n ∧ n ≤ kMaxBandFrameLength ∨ numBands = 3 ∧ n = kSamplesPer16kHzChannel

namespace ChannelFilter

variable {R : Resampler}

/-- A new channel. -/
def new (R : Resampler) : ChannelFilter R where
  whole := .zero
  lower := .zero
  upper := .zero
  up := R.new kSamplesPer48kHzChannel kSamplesPer64kHzChannel
  down := R.new kSamplesPer64kHzChannel kSamplesPer48kHzChannel

/-- Reachable states. -/
structure Reachable (c : ChannelFilter R) : Prop where
  whole : c.whole.Reachable
  lower : c.lower.Reachable
  upper : c.upper.Reachable

theorem reachable_new : (new R).Reachable :=
  ⟨TwoBandsStates.reachable_zero, TwoBandsStates.reachable_zero, TwoBandsStates.reachable_zero⟩

/-- The channel in two bands of `n` samples. -/
def analyseTwo (n : ℕ) (c : ChannelFilter R) (x : ℕ → Int16) : ChannelFilter R × (ℕ → ℕ → Int16) :=
  ({ c with whole := { c.whole with analysis := analysed c.whole.analysis x n } },
    fun band => if band = 0 then lowBandOf c.whole.analysis x else highBandOf c.whole.analysis x)

/-- The channel in three bands: of the four that the resampled signal has, all but the highest. -/
def analyseThree (c : ChannelFilter R) (x : ℕ → Int16) : ChannelFilter R × (ℕ → ℕ → Int16) :=
  let r := R.resample c.up (readCells x 0 kSamplesPer48kHzChannel)
  let low := lowBandOf c.whole.analysis r.2
  let high := highBandOf c.whole.analysis r.2
  ({ c with
      whole := { c.whole with analysis := analysed c.whole.analysis r.2 kSamplesPer32kHzChannel }
      lower := { c.lower with analysis := analysed c.lower.analysis low kSamplesPer16kHzChannel }
      upper := { c.upper with analysis := analysed c.upper.analysis high kSamplesPer16kHzChannel }
      up := r.1 },
    fun band => if band = 0 then lowBandOf c.lower.analysis low else if band = 1 then highBandOf c.lower.analysis low
      else highBandOf c.upper.analysis high)

/-- The channel from two bands of `n` samples. -/
def synthesiseTwo (n : ℕ) (c : ChannelFilter R) (y : ℕ → ℕ → Int16) : ChannelFilter R × (ℕ → Int16) :=
  ({ c with whole := { c.whole with synthesis := synthesised c.whole.synthesis (y 0) (y 1) n } },
    fullBandOf c.whole.synthesis (y 0) (y 1))

/-- The channel from three bands, with silence for the fourth. -/
def synthesiseThree (c : ChannelFilter R) (y : ℕ → ℕ → Int16) : ChannelFilter R × (ℕ → Int16) :=
  let low := fullBandOf c.lower.synthesis (y 0) (y 1)
  let high := fullBandOf c.upper.synthesis (fun _ => 0) (y 2)
  let r := R.resample c.down (readCells (fullBandOf c.whole.synthesis low high) 0 kSamplesPer64kHzChannel)
  ({ c with
      whole := { c.whole with synthesis := synthesised c.whole.synthesis low high kSamplesPer32kHzChannel }
      lower := { c.lower with synthesis := synthesised c.lower.synthesis (y 0) (y 1) kSamplesPer16kHzChannel }
      upper := { c.upper with synthesis := synthesised c.upper.synthesis (fun _ => 0) (y 2) kSamplesPer16kHzChannel }
      down := r.1 },
    r.2)

/-- The bands of a channel. -/
def analyse (numBands n : ℕ) (c : ChannelFilter R) (x : ℕ → Int16) : ChannelFilter R × (ℕ → ℕ → Int16) :=
  if numBands = 2 then c.analyseTwo n x else c.analyseThree x

/-- The channel of the bands. -/
def synthesise (numBands n : ℕ) (c : ChannelFilter R) (y : ℕ → ℕ → Int16) : ChannelFilter R × (ℕ → Int16) :=
  if numBands = 2 then c.synthesiseTwo n y else c.synthesiseThree y

variable {c : ChannelFilter R}

theorem Reachable.analyse (hc : c.Reachable) (numBands n : ℕ) (x : ℕ → Int16) :
    (c.analyse numBands n x).1.Reachable := by
  unfold ChannelFilter.analyse
  split_ifs with h
  · exact ⟨⟨hc.whole.analysis.analysed, hc.whole.synthesis⟩, hc.lower, hc.upper⟩
  · exact ⟨⟨hc.whole.analysis.analysed, hc.whole.synthesis⟩, ⟨hc.lower.analysis.analysed, hc.lower.synthesis⟩,
      ⟨hc.upper.analysis.analysed, hc.upper.synthesis⟩⟩

theorem Reachable.synthesise (hc : c.Reachable) (numBands n : ℕ) (y : ℕ → ℕ → Int16) :
    (c.synthesise numBands n y).1.Reachable := by
  unfold ChannelFilter.synthesise
  split_ifs with h
  · exact ⟨⟨hc.whole.analysis, hc.whole.synthesis.synthesised⟩, hc.lower, hc.upper⟩
  · exact ⟨⟨hc.whole.analysis, hc.whole.synthesis.synthesised⟩, ⟨hc.lower.analysis, hc.lower.synthesis.synthesised⟩,
      ⟨hc.upper.analysis, hc.upper.synthesis.synthesised⟩⟩

end ChannelFilter

/-! ## A call is one of every channel -/

namespace SplittingFilter

variable {R : Resampler} {f : SplittingFilter R} {numBands n : ℕ}

/-- What a filter has for a channel. -/
def channel (f : SplittingFilter R) (i : ℕ) : ChannelFilter R :=
  ⟨f.twoBandsStates i, f.band1States i, f.band2States i, f.analysisResamplers i, f.synthesisResamplers i⟩

/-- Change what a filter has for a channel. -/
def setChannel (f : SplittingFilter R) (i : ℕ) (c : ChannelFilter R) : SplittingFilter R :=
  { f with
    twoBandsStates := Function.update f.twoBandsStates i c.whole
    band1States := Function.update f.band1States i c.lower
    band2States := Function.update f.band2States i c.upper
    analysisResamplers := Function.update f.analysisResamplers i c.up
    synthesisResamplers := Function.update f.synthesisResamplers i c.down }

theorem channel_setChannel (i : ℕ) (c : ChannelFilter R) :
    (f.setChannel i c).channel = Function.update f.channel i c := by
  funext j
  by_cases hj : j = i
  · subst hj
    simp [channel, setChannel]
  · simp [channel, setChannel, hj]

/-- The rows of a channel, with the bands written in front. -/
def overlay (numBands n : ℕ) (y old : ℕ → ℕ → Int16) : ℕ → ℕ → Int16 :=
  fun band j => if band < numBands ∧ j < n then y band j else old band j

/-- Change the rows of a channel. -/
def setRows (m : Bands) (i : ℕ) (y : ℕ → ℕ → Int16) : Bands := fun band => Function.update (m band) i (y band)

theorem write_eq (m : Bands) (band i : ℕ) (row : ℕ → Int16) :
    m.write band i row = setRows m i (Function.update (fun band => m band i) band row) := by
  funext band' j
  unfold Bands.write setRows
  by_cases hb : band' = band
  · subst hb
    simp
  · simp [hb]

theorem setRows_apply (m : Bands) (i : ℕ) (y : ℕ → ℕ → Int16) (band : ℕ) : setRows m i y band i = y band :=
  Function.update_self ..

theorem setRows_setRows (m : Bands) (i : ℕ) (y y' : ℕ → ℕ → Int16) : setRows (setRows m i y) i y' = setRows m i y' := by
  funext band
  exact Function.update_idem ..

/-- One more band in front. -/
theorem update_overlay (y old : ℕ → ℕ → Int16) :
    Function.update (overlay numBands n y old) numBands (fun k => if k < n then y numBands k else old numBands k) =
      overlay (numBands + 1) n y old := by
  funext band k
  unfold overlay
  by_cases hb : band = numBands
  · subst hb
    simp
  · rw [Function.update_of_ne hb]
    congr 1
    rw [eq_iff_iff]
    omega

theorem overlay_zero (y old : ℕ → ℕ → Int16) : overlay 0 n y old = old := by
  funext band k
  exact if_neg (by omega)

/-- One more band of a channel is written. -/
theorem write_overlay (m : Bands) (i : ℕ) (y : ℕ → ℕ → Int16) :
    (setRows m i (overlay numBands n y fun band => m band i)).write numBands i
        (fun k => if k < n then y numBands k else m numBands i k) =
      setRows m i (overlay (numBands + 1) n y fun band => m band i) := by
  rw [write_eq, setRows_setRows, ← update_overlay]
  congr 2
  funext band
  exact setRows_apply ..

theorem write_of_ne (m : Bands) {band band' : ℕ} (h : band' ≠ band) (i : ℕ) (row : ℕ → Int16) :
    m.write band i row band' = m band' := Function.update_of_ne h ..

theorem write_first (m : Bands) (i : ℕ) (y : ℕ → ℕ → Int16) :
    m.write 0 i (fun k => if k < n then y 0 k else m 0 i k) = setRows m i (overlay 1 n y fun band => m band i) := by
  rw [write_eq, ← update_overlay, overlay_zero]

/-- A channel during the analysis. -/
def analysisCell (p : SplittingFilter R × Bands) (i : ℕ) : ChannelFilter R × (ℕ → ℕ → Int16) :=
  (p.1.channel i, fun band => p.2 band i)

theorem analysisCell_set (i : ℕ) (bands : Bands) (c : ChannelFilter R) (y : ℕ → ℕ → Int16) :
    analysisCell (f.setChannel i c, setRows bands i y) = Function.update (analysisCell (f, bands)) i (c, y) := by
  funext j
  unfold analysisCell setRows
  rw [channel_setChannel]
  by_cases hj : j = i
  · subst hj
    simp
  · simp [hj]

section Analysis

variable {i : ℕ} (bands : Bands)

/-- A turn of `TwoBandsAnalysis` is one of its channel. -/
theorem twoBandsAnalysisTurn_eq (locals : ℕ → QmfLocals) (inData : Rows) (hn : 0 < n) (hmax : n ≤ kMaxBandFrameLength)
    (hs : (f.channel i).Reachable) : twoBandsAnalysisTurn locals inData (2 * n) i (f, bands) =
      some (f.setChannel i ((f.channel i).analyseTwo n (inData i)).1,
        setRows bands i (overlay 2 n ((f.channel i).analyseTwo n (inData i)).2 fun band => bands band i)) := by
  have hcall : analysisQMF (locals i) (inData i) (2 * n) (bands 0 i) (bands 1 i) (f.channel i).whole.analysis.one
      (f.channel i).whole.analysis.two = _ := analysisQMF_eq (locals i) hs.whole.analysis hn hmax
  rw [← write_overlay, ← write_first]
  unfold twoBandsAnalysisTurn
  simp only [channel] at hcall
  simp only [hcall, Option.bind_eq_bind, Option.bind_some, setChannel, channel, ChannelFilter.analyseTwo,
    Function.update_eq_self]
  rfl

/-- A turn of `ThreeBandsAnalysis` is one of its channel, whatever the buffer holds. -/
theorem threeBandsAnalysisTurn_eq (locals : ℕ → ℕ → QmfLocals) (inData : Rows) {buffer : ℕ → Int16}
    (hbuffer : f.intBuffer = some buffer) (hs : (f.channel i).Reachable) :
    ∃ buffer', threeBandsAnalysisTurn locals inData i (f, bands) =
      some ({ f.setChannel i ((f.channel i).analyseThree (inData i)).1 with intBuffer := some buffer' },
        setRows bands i (overlay 3 kSamplesPer16kHzChannel ((f.channel i).analyseThree (inData i)).2
          fun band => bands band i)) := by
  obtain ⟨hwholeStates, hlowerStates, hupperStates⟩ : (f.twoBandsStates i).Reachable ∧ (f.band1States i).Reachable ∧
      (f.band2States i).Reachable := ⟨hs.whole, hs.lower, hs.upper⟩
  obtain ⟨r, hr⟩ : ∃ r, r = R.resample (f.analysisResamplers i) (readCells (inData i) 0 kSamplesPer48kHzChannel) :=
    ⟨_, rfl⟩
  obtain ⟨first, hfirst⟩ : ∃ first, first = memcpy buffer 0 r.2 0 kSamplesPer64kHzChannel := ⟨_, rfl⟩
  have hin : ∀ k < 2 * kSamplesPer32kHzChannel, first k = r.2 k := fun k hk => by
    rw [hfirst, memcpy_of_mem (Nat.zero_le k) (by rw [Nat.zero_add]; exact hk), Nat.zero_add, Nat.sub_zero]
  have hwhole : analysisQMF (locals i 0) first kSamplesPer64kHzChannel first
      (fun k => first (kSamplesPer32kHzChannel + k)) (f.twoBandsStates i).analysis.one
      (f.twoBandsStates i).analysis.two = _ :=
    analysisQMF_of (n := kSamplesPer32kHzChannel) (locals i 0) _ _ hwholeStates.analysis (by decide) (by decide) hin
  obtain ⟨second, hsecond⟩ : ∃ second, second = memcpy (memcpy first 0
      (fun k => if k < kSamplesPer32kHzChannel then lowBandOf (f.twoBandsStates i).analysis r.2 k else first k) 0
      kSamplesPer32kHzChannel) kSamplesPer32kHzChannel (fun k => if k < kSamplesPer32kHzChannel then
        highBandOf (f.twoBandsStates i).analysis r.2 k else first (kSamplesPer32kHzChannel + k)) 0
      kSamplesPer32kHzChannel := ⟨_, rfl⟩
  have hlow : ∀ k < kSamplesPer32kHzChannel, second k = lowBandOf (f.twoBandsStates i).analysis r.2 k := by
    intro k hk
    rw [hsecond, (memcpy_halves _ _ _ hk).1]
    exact if_pos hk
  have hhigh : ∀ k < kSamplesPer32kHzChannel, second (kSamplesPer32kHzChannel + k) =
      highBandOf (f.twoBandsStates i).analysis r.2 k := by
    intro k hk
    rw [hsecond, (memcpy_halves _ _ _ hk).2]
    exact if_pos hk
  have hlower : analysisQMF (locals i 1) second kSamplesPer32kHzChannel (bands 0 i) (bands 1 i)
      (f.band1States i).analysis.one (f.band1States i).analysis.two = _ :=
    analysisQMF_of (n := kSamplesPer16kHzChannel) (locals i 1) _ _ hlowerStates.analysis (by decide) (by decide) hlow
  have hupper : analysisQMF (locals i 2) (fun k => second (kSamplesPer32kHzChannel + k)) kSamplesPer32kHzChannel second
      (bands 2 i) (f.band2States i).analysis.one (f.band2States i).analysis.two = _ :=
    analysisQMF_of (n := kSamplesPer16kHzChannel) (locals i 2) _ _ hupperStates.analysis (by decide) (by decide) hhigh
  refine ⟨memcpy second 0 (fun k => if k < kSamplesPer16kHzChannel then lowBandOf (f.band2States i).analysis
    (highBandOf (f.twoBandsStates i).analysis r.2) k else second k) 0 kSamplesPer16kHzChannel, ?_⟩
  rw [← write_overlay, ← write_overlay, ← write_first]
  unfold threeBandsAnalysisTurn
  simp only [hbuffer, ← hr, ← hfirst, hwhole, ← hsecond, hlower, Option.bind_eq_bind, Option.bind_some,
    write_of_ne _ (show 2 ≠ 1 by decide), write_of_ne _ (show 2 ≠ 0 by decide), hupper, setChannel, channel,
    ChannelFilter.analyseThree, Function.update_eq_self]
  rfl

end Analysis

section Synthesis

variable {i : ℕ} (outData : Rows)

/-- A channel during the synthesis. -/
def synthesisCell (p : SplittingFilter R × Rows) (i : ℕ) : ChannelFilter R × (ℕ → Int16) := (p.1.channel i, p.2 i)

theorem synthesisCell_set (i : ℕ) (c : ChannelFilter R) (row : ℕ → Int16) :
    synthesisCell (f.setChannel i c, Function.update outData i row) =
      Function.update (synthesisCell (f, outData)) i (c, row) := by
  funext j
  unfold synthesisCell
  rw [channel_setChannel]
  by_cases hj : j = i
  · subst hj
    simp
  · simp [hj]

/-- A row with the first `n` samples written. -/
def overwrite (n : ℕ) (y old : ℕ → Int16) : ℕ → Int16 := fun j => if j < n then y j else old j

/-- A turn of `TwoBandsSynthesis` is one of its channel. -/
theorem twoBandsSynthesisTurn_eq (locals : ℕ → QmfLocals) (bands : Bands) (hn : 0 < n) (hmax : n ≤ kMaxBandFrameLength)
    (hs : (f.channel i).Reachable) : twoBandsSynthesisTurn locals bands n i (f, outData) =
      some (f.setChannel i ((f.channel i).synthesiseTwo n fun band => bands band i).1,
        Function.update outData i
          (overwrite (2 * n) ((f.channel i).synthesiseTwo n fun band => bands band i).2 (outData i))) := by
  have hstates : (f.twoBandsStates i).Reachable := hs.whole
  unfold twoBandsSynthesisTurn
  simp only [synthesisQMF_eq (locals i) (outData i) hstates.synthesis hn hmax, Option.bind_eq_bind, Option.bind_some,
    setChannel, channel, ChannelFilter.synthesiseTwo, Function.update_eq_self]
  rfl

/-- A turn of `ThreeBandsSynthesis` is one of its channel, whatever the buffer holds. -/
theorem threeBandsSynthesisTurn_eq (locals : ℕ → ℕ → QmfLocals) (bands : Bands) {buffer : ℕ → Int16}
    (hbuffer : f.intBuffer = some buffer) (hs : (f.channel i).Reachable) :
    ∃ buffer', threeBandsSynthesisTurn locals bands i (f, outData) =
      some ({ f.setChannel i ((f.channel i).synthesiseThree fun band => bands band i).1 with
          intBuffer := some buffer' },
        Function.update outData i (overwrite kSamplesPer48kHzChannel
          ((f.channel i).synthesiseThree fun band => bands band i).2 (outData i))) := by
  obtain ⟨hwholeStates, hlowerStates, hupperStates⟩ : (f.twoBandsStates i).Reachable ∧ (f.band1States i).Reachable ∧
      (f.band2States i).Reachable := ⟨hs.whole, hs.lower, hs.upper⟩
  obtain ⟨zeros, hzeros⟩ : ∃ zeros, zeros = memset buffer 0 0 kSamplesPer64kHzChannel := ⟨_, rfl⟩
  have hlower : synthesisQMF (locals i 0) (bands 0 i) (bands 1 i) kSamplesPer16kHzChannel zeros
      (f.band1States i).synthesis.one (f.band1States i).synthesis.two = _ :=
    synthesisQMF_eq (locals i 0) zeros hlowerStates.synthesis (by decide) (by decide)
  obtain ⟨first, hfirst⟩ : ∃ first, first = memcpy zeros 0 (fun k => if k < 2 * kSamplesPer16kHzChannel then
      fullBandOf (f.band1States i).synthesis (bands 0 i) (bands 1 i) k else zeros k) 0 kSamplesPer32kHzChannel :=
    ⟨_, rfl⟩
  have hsilent : ∀ k < kSamplesPer16kHzChannel, first (kSamplesPer32kHzChannel + k) = 0 := by
    intro k hk
    have hk' : k < 160 := hk
    rw [hfirst, memcpy_of_notMem (by omega), hzeros]
    exact memset_of_lt (show 320 + k < 640 by omega)
  have hupper := synthesisQMF_of (n := kSamplesPer16kHzChannel) (locals i 1)
    (fun k => first (kSamplesPer32kHzChannel + k)) hupperStates.synthesis (by decide) (by decide) hsilent
    (show ∀ k < kSamplesPer16kHzChannel, bands 2 i k = bands 2 i k from fun _ _ => rfl)
  obtain ⟨second, hsecond⟩ : ∃ second, second = memcpy first kSamplesPer32kHzChannel
      (fun k => if k < 2 * kSamplesPer16kHzChannel then
        fullBandOf (f.band2States i).synthesis (fun _ => 0) (bands 2 i) k else first (kSamplesPer32kHzChannel + k)) 0
      kSamplesPer32kHzChannel := ⟨_, rfl⟩
  have hlow : ∀ k < kSamplesPer32kHzChannel, second k =
      fullBandOf (f.band1States i).synthesis (bands 0 i) (bands 1 i) k := by
    intro k hk
    rw [hsecond, hfirst, (memcpy_halves _ _ _ hk).1]
    exact if_pos hk
  have hhigh : ∀ k < kSamplesPer32kHzChannel, second (kSamplesPer32kHzChannel + k) =
      fullBandOf (f.band2States i).synthesis (fun _ => 0) (bands 2 i) k := by
    intro k hk
    rw [hsecond, hfirst, (memcpy_halves _ _ _ hk).2]
    exact if_pos hk
  have hwhole := synthesisQMF_of (locals i 2) second hwholeStates.synthesis (by decide) (by decide) hlow hhigh
  obtain ⟨third, hthird⟩ : ∃ third, third = memcpy second 0 (fun k => if k < 2 * kSamplesPer32kHzChannel then
      fullBandOf (f.twoBandsStates i).synthesis (fullBandOf (f.band1States i).synthesis (bands 0 i) (bands 1 i))
        (fullBandOf (f.band2States i).synthesis (fun _ => 0) (bands 2 i)) k else second k) 0
      kSamplesPer64kHzChannel := ⟨_, rfl⟩
  have hcells : readCells third 0 kSamplesPer64kHzChannel = readCells (fullBandOf (f.twoBandsStates i).synthesis
      (fullBandOf (f.band1States i).synthesis (bands 0 i) (bands 1 i))
        (fullBandOf (f.band2States i).synthesis (fun _ => 0) (bands 2 i))) 0 kSamplesPer64kHzChannel := by
    rw [hthird, readCells_memcpy]
    exact readCells_congr fun k hk => if_pos (show 0 + k < _ by rw [Nat.zero_add]; exact hk)
  have hout : ∀ y : ℕ → Int16, memcpy (outData i) 0 y 0 kSamplesPer48kHzChannel =
      overwrite kSamplesPer48kHzChannel y (outData i) := by
    intro y
    funext k
    simp [memcpy, overwrite]
  refine ⟨third, ?_⟩
  unfold threeBandsSynthesisTurn
  simp only [hbuffer, ← hzeros, hlower, ← hfirst, hupper, ← hsecond, hwhole, ← hthird, hcells, hout,
    Option.bind_eq_bind, Option.bind_some, setChannel, channel, ChannelFilter.synthesiseThree, Function.update_eq_self]
  rfl

end Synthesis

/-! ## Calls -/

theorem channel_initBuffers (fresh : ℕ → Int16) (f : SplittingFilter R) : (f.initBuffers fresh).channel = f.channel := by
  unfold initBuffers
  split <;> rfl

theorem channels_initBuffers (fresh : ℕ → Int16) (f : SplittingFilter R) :
    (f.initBuffers fresh).channels = f.channels := by
  unfold initBuffers
  split <;> rfl

theorem exists_buffer (fresh : ℕ → Int16) (f : SplittingFilter R) :
    ∃ buffer, (f.initBuffers fresh).intBuffer = some buffer := by
  unfold initBuffers
  split
  · exact ⟨_, rfl⟩
  · exact ⟨_, ‹_›⟩

/-- **`Analysis` is one of every channel**, whatever is in the memory that is not initialised. -/
theorem analysis_eq (locals : ℕ → ℕ → QmfLocals) (fresh : ℕ → Int16) (inData : Rows) (hsizes : BandSizes numBands n)
    (hf : ∀ i < f.channels, (f.channel i).Reachable) (bands : Bands) :
    ∃ f' bands', f.analysis locals fresh inData (numBands * n) numBands bands = some (f', bands') ∧
      f'.channels = f.channels ∧ ∀ i < f.channels, f'.channel i = ((f.channel i).analyse numBands n (inData i)).1 ∧
        ∀ band, bands' band i =
          overlay numBands n ((f.channel i).analyse numBands n (inData i)).2 (fun band => bands band i) band := by
  let g := fun i (p : ChannelFilter R × (ℕ → ℕ → Int16)) =>
    ((p.1.analyse numBands n (inData i)).1, overlay numBands n (p.1.analyse numBands n (inData i)).2 p.2)
  suffices hrun : ∃ r, f.analysis locals fresh inData (numBands * n) numBands bands = some r ∧
      r.1.channels = f.channels ∧ analysisCell r = fun i => if i < f.channels then g i (analysisCell (f, bands) i)
        else analysisCell (f, bands) i by
    obtain ⟨⟨f', bands'⟩, hcall, hwidth, hcells⟩ := hrun
    refine ⟨f', bands', hcall, hwidth, fun i hi => ?_⟩
    have hcell := congrFun hcells i
    rw [if_pos hi] at hcell
    exact ⟨congrArg Prod.fst hcell, congrFun (congrArg Prod.snd hcell)⟩
  rcases hsizes with ⟨rfl, hn, hmax⟩ | ⟨rfl, rfl⟩
  · obtain ⟨r, hloop, hwidth, hcells⟩ := forLoopM_cells (n := f.channels) analysisCell g
      (fun p => p.1.channels = f.channels) (fun _ p => p.1.Reachable) (fun i p _ hwidth hs => ⟨_,
        twoBandsAnalysisTurn_eq p.2 (fun i => locals i 0) inData hn hmax hs, hwidth, analysisCell_set ..⟩)
      (s := (f, bands)) rfl hf
    exact ⟨r, hloop, hwidth, hcells⟩
  · have hcell : analysisCell (f.initBuffers fresh, bands) = analysisCell (f, bands) := by
      unfold analysisCell
      rw [channel_initBuffers]
    obtain ⟨r, hloop, ⟨hwidth, -⟩, hcells⟩ := forLoopM_cells (n := f.channels) analysisCell g
      (fun p => p.1.channels = f.channels ∧ ∃ buffer, p.1.intBuffer = some buffer) (fun _ p => p.1.Reachable)
      (fun i p _ hI hs => by
        obtain ⟨buffer', hturn⟩ := threeBandsAnalysisTurn_eq p.2 locals inData hI.2.choose_spec hs
        exact ⟨_, hturn, ⟨hI.1, _, rfl⟩, analysisCell_set ..⟩)
      (s := (f.initBuffers fresh, bands)) ⟨channels_initBuffers fresh f, exists_buffer fresh f⟩ (hcell ▸ hf)
    exact ⟨r, hloop, hwidth, hcell ▸ hcells⟩

/-- **`Synthesis` is one of every channel**, whatever is in the memory that is not initialised. -/
theorem synthesis_eq (locals : ℕ → ℕ → QmfLocals) (fresh : ℕ → Int16) (bands : Bands) (hsizes : BandSizes numBands n)
    (hf : ∀ i < f.channels, (f.channel i).Reachable) (outData : Rows) :
    ∃ f' outData', f.synthesis locals fresh bands n numBands outData = some (f', outData') ∧
      f'.channels = f.channels ∧ ∀ i < f.channels,
        f'.channel i = ((f.channel i).synthesise numBands n fun band => bands band i).1 ∧
        outData' i = overwrite (numBands * n) ((f.channel i).synthesise numBands n fun band => bands band i).2
          (outData i) := by
  let g := fun i (p : ChannelFilter R × (ℕ → Int16)) =>
    let r := p.1.synthesise numBands n fun band => bands band i
    (r.1, overwrite (numBands * n) r.2 p.2)
  suffices hrun : ∃ r, f.synthesis locals fresh bands n numBands outData = some r ∧
      r.1.channels = f.channels ∧ synthesisCell r = fun i => if i < f.channels then g i (synthesisCell (f, outData) i)
        else synthesisCell (f, outData) i by
    obtain ⟨⟨f', outData'⟩, hcall, hwidth, hcells⟩ := hrun
    refine ⟨f', outData', hcall, hwidth, fun i hi => ?_⟩
    have hcell := congrFun hcells i
    rw [if_pos hi] at hcell
    exact ⟨congrArg Prod.fst hcell, congrArg Prod.snd hcell⟩
  rcases hsizes with ⟨rfl, hn, hmax⟩ | ⟨rfl, rfl⟩
  · obtain ⟨r, hloop, hwidth, hcells⟩ := forLoopM_cells (n := f.channels) synthesisCell g
      (fun p => p.1.channels = f.channels) (fun _ p => p.1.Reachable) (fun i p _ hwidth hs => ⟨_,
        twoBandsSynthesisTurn_eq p.2 (fun i => locals i 0) bands hn hmax hs, hwidth, synthesisCell_set ..⟩)
      (s := (f, outData)) rfl hf
    exact ⟨r, hloop, hwidth, hcells⟩
  · have hcell : synthesisCell (f.initBuffers fresh, outData) = synthesisCell (f, outData) := by
      unfold synthesisCell
      rw [channel_initBuffers]
    obtain ⟨r, hloop, ⟨hwidth, -⟩, hcells⟩ := forLoopM_cells (n := f.channels) synthesisCell g
      (fun p => p.1.channels = f.channels ∧ ∃ buffer, p.1.intBuffer = some buffer) (fun _ p => p.1.Reachable)
      (fun i p _ hI hs => by
        obtain ⟨buffer', hturn⟩ := threeBandsSynthesisTurn_eq p.2 locals bands hI.2.choose_spec hs
        exact ⟨_, hturn, ⟨hI.1, _, rfl⟩, synthesisCell_set ..⟩)
      (s := (f.initBuffers fresh, outData)) ⟨channels_initBuffers fresh f, exists_buffer fresh f⟩ (hcell ▸ hf)
    exact ⟨r, hloop, hwidth, hcell ▸ hcells⟩

end SplittingFilter

/-! ## Runs -/

/-- The memory that a call does not initialise. -/
structure Garbage where
  locals : ℕ → ℕ → QmfLocals
  fresh : ℕ → Int16

/-- A call, with the memory that it reads and the one that it writes. -/
inductive FilterCall
  | analysis (numBands n : ℕ) (sizes : BandSizes numBands n) (inData : Rows) (bands : Bands)
  | synthesis (numBands n : ℕ) (sizes : BandSizes numBands n) (bands : Bands) (outData : Rows)

/-- A call on one channel. -/
inductive ChannelCall
  | analysis (numBands n : ℕ) (x : ℕ → Int16) (old : ℕ → ℕ → Int16)
  | synthesis (numBands n : ℕ) (y : ℕ → ℕ → Int16) (old : ℕ → Int16)

/-- What a call does to a channel. -/
def FilterCall.channel (i : ℕ) : FilterCall → ChannelCall
  | analysis numBands n _ inData bands => .analysis numBands n (inData i) fun band => bands band i
  | synthesis numBands n _ bands outData => .synthesis numBands n (fun band => bands band i) (outData i)

variable {R : Resampler}

/-- The answer of a call: what it has written. -/
def SplittingFilter.call (f : SplittingFilter R) (a : Garbage × FilterCall) : Option (Bands × SplittingFilter R) :=
  match a.2 with
  | .analysis numBands n _ inData bands =>
      (f.analysis a.1.locals a.1.fresh inData (numBands * n) numBands bands).map Prod.swap
  | .synthesis numBands n _ bands outData =>
      (f.synthesis a.1.locals a.1.fresh bands n numBands outData).map fun r => (fun _ => r.2, r.1)

/-- The answer of a call on one channel. -/
def ChannelFilter.call (c : ChannelFilter R) : ChannelCall → (ℕ → ℕ → Int16) × ChannelFilter R
  | .analysis numBands n x old =>
      let r := c.analyse numBands n x
      (SplittingFilter.overlay numBands n r.2 old, r.1)
  | .synthesis numBands n y old =>
      let r := c.synthesise numBands n y
      (fun _ => SplittingFilter.overwrite (numBands * n) r.2 old, r.1)

/-- The filter is made of channels in reachable states. -/
structure MadeOf (n : ℕ) (f : SplittingFilter R) (c : ℕ → ChannelFilter R) : Prop where
  channels : f.channels = n
  channel : ∀ i < n, f.channel i = c i
  reachable : ∀ i < n, (c i).Reachable

/-- A call is one of every channel. -/
theorem call_madeOf {n : ℕ} {f : SplittingFilter R} {c : ℕ → ChannelFilter R} (a : Garbage × FilterCall)
    (h : MadeOf n f c) : ∃ answer f', f.call a = some (answer, f') ∧
      (∀ i, i < n → (fun band => answer band i) = ((c i).call (a.2.channel i)).1) ∧
      MadeOf n f' fun i => ((c i).call (a.2.channel i)).2 := by
  obtain ⟨rfl, hchannel, hreach⟩ := h
  have hf : ∀ i < f.channels, (f.channel i).Reachable := fun i hi => hchannel i hi ▸ hreach i hi
  obtain ⟨junk, call⟩ := a
  cases call with
  | analysis numBands k sizes inData bands =>
      obtain ⟨f', bands', hcall, hwidth, hcells⟩ :=
        SplittingFilter.analysis_eq junk.locals junk.fresh inData sizes hf bands
      refine ⟨bands', f', ?_, fun i hi => ?_, hwidth, fun i hi => ?_, fun i hi => ?_⟩
      · simp only [SplittingFilter.call, hcall, Option.map_some, Prod.swap]
      · rw [← hchannel i hi]
        exact funext (hcells i hi).2
      · rw [← hchannel i hi]
        exact (hcells i hi).1
      · exact (hreach i hi).analyse numBands k (inData i)
  | synthesis numBands k sizes bands outData =>
      obtain ⟨f', outData', hcall, hwidth, hcells⟩ :=
        SplittingFilter.synthesis_eq junk.locals junk.fresh bands sizes hf outData
      refine ⟨fun _ => outData', f', ?_, fun i hi => ?_, hwidth, fun i hi => ?_, fun i hi => ?_⟩
      · simp only [SplittingFilter.call, hcall, Option.map_some]
      · rw [← hchannel i hi]
        exact funext fun _ => (hcells i hi).2
      · rw [← hchannel i hi]
        exact (hcells i hi).1
      · exact (hreach i hi).synthesise numBands k fun band => bands band i

/-- **A splitting filter is as many filters of one channel.** In every run of `Analysis` and `Synthesis`, in any order and
with two bands or three, no call fails, and what it writes for a channel is what a filter of that channel alone writes:
it does not depend on the other channels, on the buffer that the channels share, or on memory that is not
initialised. -/
theorem splittingFilter_channels (R : Resampler) (channels : ℕ) (calls : List (Garbage × FilterCall)) :
    ∃ answers, outputsM SplittingFilter.call (SplittingFilter.create R channels) calls = some answers ∧
      ∀ i, i < channels → answers.map (fun answer band => answer band i) =
        Runs.outputs ChannelFilter.call (.new R) (calls.map fun a => a.2.channel i) :=
  outputsM_components (MadeOf channels) (fun i a => a.2.channel i) (fun i (answer : Bands) band => answer band i)
    (fun _ _ a h => call_madeOf a h) (c := fun _ => .new R)
    ⟨rfl, fun _ _ => rfl, fun _ _ => ChannelFilter.reachable_new⟩ calls

end AudioProcess
