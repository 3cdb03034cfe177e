import AudioProcess.Apm.Rows

/-!
# Gain control and the denoiser do not compose

With gain control the call splits the full band, controls the bands, denoises the full band, and merges the
bands over it.

* `SetUp`: a module that `initRnnoiseModule` set up with gain control (`setUp_init`); a call keeps it so;
* `gainControlled`: the call without its denoiser; `SameAgc`: the two side by side;
* `processUseRnnoise_eq`: the samples that come back are the gain-controlled ones;
* **`composes_iff`**: they are denoised exactly when the denoiser changes nothing, and they do not depend on it.
-/

namespace AudioProcess

open CFloat CLoop Mem

variable {F : Type} {V : Vendor} {n : ℕ}

/-! ## Modules with gain control -/

/-- A buffer for `n` channels of 480 samples at least, with bands. -/
structure Buffer480 (n : ℕ) (b : AudioBuffer F V) : Prop where
  numChannels : n ≤ b.channels.numChannels
  samplesPerChannel : b.channels.samplesPerChannel = rnnFrameSize
  splitChannels : b.splitChannels ≠ []
  splittingFilter : b.splittingFilter.isSome

/-- The settings of a module for `n` channels with gain control. -/
structure Configured (n : ℕ) (m : ApmNs F V) : Prop where
  frequency : m.frequency = 48000
  doAgc : m.doAgc = true
  captureBuffer : ∃ b, m.captureBuffer = some b ∧ Buffer480 n b

/-- The handles of `k` channels. -/
structure Handles (k : ℕ) (m : ApmNs F V) : Prop where
  agcHandles : k ≤ m.agcHandles.length
  captureLevel : k ≤ m.captureLevel.length
  rnnoiseHandles : k ≤ m.rnnoiseHandles.length

/-- A module set up for `n` channels with gain control, in any state of its handles and its buffer. -/
structure SetUp (n : ℕ) (m : ApmNs F V) : Prop extends Configured n m, Handles n m

theorem SetUp.splits {m : ApmNs F V} (hm : SetUp n m) : m.Splits := ⟨hm.doAgc, Or.inr hm.frequency⟩

variable [CFloat F]

theorem buffer480_create (n : ℕ) : Buffer480 n (AudioBuffer.create (F := F) V rnnFrameSize n) := by
  have h480 : rnnFrameSize = kSamplesPer32kHzChannel ∨ rnnFrameSize = kSamplesPer48kHzChannel := Or.inr rfl
  unfold AudioBuffer.create
  rw [if_pos h480]
  exact ⟨le_rfl, rfl, List.cons_ne_nil _ _, rfl⟩

omit [CFloat F] in
theorem initRnnoiseChannel_inv {i : ℕ} {r : Bool × ApmNs F V}
    (h : r.1 = true → Configured n r.2 ∧ Handles i r.2) :
    (initRnnoiseChannel 48000 true i r).1 = true →
      Configured n (initRnnoiseChannel 48000 true i r).2 ∧
        Handles (i + 1) (initRnnoiseChannel 48000 true i r).2 := by
  obtain ⟨ok, m⟩ := r
  cases ok with
  | false => exact fun h => Bool.noConfusion h
  | true =>
      obtain ⟨hconf, hhandles⟩ := h rfl
      unfold initRnnoiseChannel
      cases createAgc V 48000 i with
      | none => exact fun h => Bool.noConfusion h
      | some handle =>
          refine fun _ => ⟨⟨hconf.frequency, hconf.doAgc, hconf.captureBuffer⟩, ?_, ?_, ?_⟩
          · simpa using hhandles.agcHandles
          · simpa using hhandles.captureLevel
          · simpa using hhandles.rnnoiseHandles

/-- **What `initRnnoiseModule` sets up**, on an object without a capture buffer, or with one that is large enough. -/
theorem setUp_init {m m' : ApmNs F V} {frequency : ℕ} {inputFrames : ℤ}
    (hkept : ∀ b, m.captureBuffer = some b → Buffer480 n b)
    (hinit : initRnnoiseModule m frequency inputFrames n true = some (true, m')) : SetUp n m' := by
  unfold initRnnoiseModule at hinit
  split_ifs at hinit with hbad
  · cases hinit
  · rw [not_or, not_not, not_not] at hbad
    obtain ⟨rfl, rfl⟩ := hbad
    obtain ⟨b, hbuffer, hb⟩ : ∃ b, rnnoiseBuffer m 480 n = some b ∧ Buffer480 n b := by
      unfold rnnoiseBuffer
      cases hold : m.captureBuffer with
      | none => exact ⟨_, if_neg (Int.not_lt.mpr (Int.natCast_nonneg n)), buffer480_create n⟩
      | some b => exact ⟨b, rfl, hkept b hold⟩
    rw [hbuffer] at hinit
    have hloop := Option.some.inj hinit
    rw [Int.toNat_natCast] at hloop
    have hinv : (true, m').1 = true → Configured n (true, m').2 ∧ Handles n (true, m').2 := by
      rw [← hloop]
      refine forLoop_induction (fun i (r : Bool × ApmNs F V) => r.1 = true → Configured n r.2 ∧ Handles i r.2)
        (Nat.zero_le n) (fun _ => ?_) fun i r _ _ h => initRnnoiseChannel_inv h
      exact ⟨⟨rfl, rfl, ⟨b, rfl, hb⟩⟩, Nat.zero_le _, Nat.zero_le _, Nat.zero_le _⟩
    obtain ⟨hconf, hhandles⟩ := hinv rfl
    exact ⟨hconf, hhandles⟩

/-! ## The stages of a call -/

variable {b : AudioBuffer F V} {i ch : ℕ}

theorem Buffer480.data_eq (hb : Buffer480 n b) (hi : i < n) :
    b.data i rnnFrameSize = some { b with channels := b.channels.ibuf } :=
  if_pos ⟨hi.trans_le hb.numChannels, hb.samplesPerChannel.ge⟩

theorem Buffer480.ibuf (hb : Buffer480 n b) : Buffer480 n { b with channels := b.channels.ibuf } :=
  ⟨by simpa using hb.numChannels, by simpa using hb.samplesPerChannel, hb.splitChannels, hb.splittingFilter⟩

omit [CFloat F] in
theorem Buffer480.hasRows (hb : Buffer480 n b) : b.HasRows n rnnFrameSize :=
  fun _ hch => ⟨hch.trans_le hb.numChannels, hb.samplesPerChannel.ge⟩

theorem Buffer480.filled (hb : Buffer480 n b) (k : ℕ) (rows : ℕ → ℕ → Int16) : Buffer480 n (b.filled k rows) := by
  unfold AudioBuffer.filled
  split_ifs
  · exact hb
  · exact ⟨hb.ibuf.numChannels, hb.ibuf.samplesPerChannel, hb.splitChannels, hb.splittingFilter⟩

theorem deinterleave_some (hb : Buffer480 n b) (data : ℕ → Int16) :
    ∃ b', forLoopM 0 n (deinterleaveChannel data rnnFrameSize n) b = some b' ∧ Buffer480 n b' :=
  ⟨_, deinterleave_eq data hb.hasRows, hb.filled n _⟩

theorem split_some (hb : Buffer480 n b) : ∃ b', b.splitIntoFrequencyBands = some b' ∧ Buffer480 n b' := by
  obtain ⟨filter, hfilter⟩ := Option.isSome_iff_exists.mp hb.splittingFilter
  refine ⟨_, by rw [AudioBuffer.splitIntoFrequencyBands, hfilter]; rfl, ?_⟩
  refine ⟨?_, ?_, ?_, rfl⟩
  · simpa using hb.numChannels
  · simpa using hb.samplesPerChannel
  · simpa using hb.splitChannels

/-- Two turns that differ at most in their full bands and their denoisers. -/
structure SameAgc (n : ℕ) (t t' : Turn F V) : Prop where
  agcHandles : t.apm.agcHandles = t'.apm.agcHandles
  captureLevels : t.apm.captureLevel = t'.apm.captureLevel
  splitChannels : t.buffer.splitChannels = t'.buffer.splitChannels
  splittingFilter : t.buffer.splittingFilter = t'.buffer.splittingFilter
  samplesPerSplitChannel : t.buffer.samplesPerSplitChannel = t'.buffer.samplesPerSplitChannel
  numBands : t.buffer.numBands = t'.buffer.numBands
  captureLevel : t.captureLevel = t'.captureLevel
  streamIsSaturated : t.streamIsSaturated = t'.streamIsSaturated
  buffer : Buffer480 n t.buffer
  buffer' : Buffer480 n t'.buffer
  handles : Handles n t.apm
  frequency : t.apm.frequency = 48000
  doAgc : t.apm.doAgc = true

variable {t t' : Turn F V}

omit [CFloat F] in
theorem Buffer480.withBands (hb : Buffer480 n b) {splitChannels : List (IFChannelBuffer F)}
    (h : splitChannels ≠ []) : Buffer480 n { b with splitChannels := splitChannels } :=
  ⟨hb.numChannels, hb.samplesPerChannel, h, hb.splittingFilter⟩

omit [CFloat F] in
theorem Buffer480.updateBands (hb : Buffer480 n b) (f : ℕ → IFChannelBuffer F → IFChannelBuffer F) :
    b.updateBands f = { b with splitChannels := b.splitChannels.mapIdx f } := if_neg hb.splitChannels

/-- The bands after `split_bands`. -/
def Turn.openBands (t : Turn F V) : List (IFChannelBuffer F) :=
  t.buffer.splitChannels.mapIdx fun _ s => s.ibuf

/-- What `WebRtcAgc_Process` leaves on channel `ch`. -/
def Turn.agcResult (t : Turn F V) (ch : ℕ) (handle : V.Agc) (level : ℤ) : AgcResult V.Agc :=
  V.agcProcess handle (fun k => t.openBands[k]?.map fun s => s.ibufData ch) t.buffer.numBands
    (Int16.ofNat t.buffer.samplesPerSplitChannel) level t.captureLevel t.streamIsSaturated

theorem Turn.openBands_ne_nil (hb : Buffer480 n t.buffer) : t.openBands ≠ [] := by
  simpa [openBands] using hb.splitChannels

theorem agcChannel_eq (hb : Buffer480 n t.buffer) (hch : ch < n) {handle : V.Agc} {level : ℤ}
    (hhandle : t.apm.agcHandles[ch]? = some handle) (hlevel : t.apm.captureLevel[ch]? = some level) :
    agcChannel ch t = some
      { apm := { t.apm with
          agcHandles := t.apm.agcHandles.set ch (t.agcResult ch handle level).handle
          captureLevel := t.apm.captureLevel.set ch (t.agcResult ch handle level).outMicLevel }
        buffer := { t.buffer with
          splitChannels := t.openBands.mapIdx fun k s => s.write ch ((t.agcResult ch handle level).out k) }
        captureLevel := (t.agcResult ch handle level).outMicLevel
        streamIsSaturated := (t.agcResult ch handle level).saturationWarning } := by
  have hlt : ch < t.buffer.channels.numChannels := hch.trans_le hb.numChannels
  have hopen : t.buffer.splitBands ch = some { t.buffer with splitChannels := t.openBands } :=
    (if_pos hlt).trans (congrArg some (hb.updateBands fun _ s => s.ibuf))
  have hb' : Buffer480 n { t.buffer with splitChannels := t.openBands } := 
    hb.withBands (Turn.openBands_ne_nil hb)
  have hbands : AudioBuffer.bands { t.buffer with splitChannels := t.openBands } ch =
      fun k => t.openBands[k]?.map fun s => s.ibufData ch := funext fun k => if_neg hb'.splitChannels
  have hwrite := hb'.updateBands fun k s => s.write ch ((t.agcResult ch handle level).out k)
  rw [agcChannel_of hhandle hlevel hopen, hbands]
  show some (Turn.mk _ (AudioBuffer.updateBands { t.buffer with splitChannels := t.openBands } fun k s =>
    s.write ch ((t.agcResult ch handle level).out k)) _ _) = _
  rw [hwrite]
  rfl

theorem SameAgc.agcResult (h : SameAgc n t t') (ch : ℕ) (handle : V.Agc) (level : ℤ) :
    t.agcResult ch handle level = t'.agcResult ch handle level := by
  unfold Turn.agcResult Turn.openBands
  rw [h.splitChannels, h.numBands, h.samplesPerSplitChannel, h.captureLevel, h.streamIsSaturated]

theorem SameAgc.agc (h : SameAgc n t t') (hch : ch < n) :
    ∃ u u', agcChannel ch t = some u ∧ agcChannel ch t' = some u' ∧ SameAgc n u u' := by
  obtain ⟨handle, hhandle⟩ : ∃ handle, t.apm.agcHandles[ch]? = some handle :=
    ⟨_, List.getElem?_eq_getElem (hch.trans_le h.handles.agcHandles)⟩
  obtain ⟨level, hlevel⟩ : ∃ level, t.apm.captureLevel[ch]? = some level :=
    ⟨_, List.getElem?_eq_getElem (hch.trans_le h.handles.captureLevel)⟩
  have hopen : t.openBands = t'.openBands := by
    unfold Turn.openBands
    rw [h.splitChannels]
  refine ⟨_, _, agcChannel_eq h.buffer hch hhandle hlevel,
    agcChannel_eq h.buffer' hch (by rw [← h.agcHandles, hhandle]) (by rw [← h.captureLevels, hlevel]), ?_⟩
  simp only [h.agcResult, hopen]
  refine { h with agcHandles := ?_, captureLevels := ?_, splitChannels := rfl, captureLevel := rfl,
                  streamIsSaturated := rfl, buffer := ?_, buffer' := ?_, handles := ?_ }
  · rw [h.agcHandles]
  · rw [h.captureLevels]
  · exact h.buffer.withBands (by simpa [← hopen] using Turn.openBands_ne_nil h.buffer)
  · exact h.buffer'.withBands (by simpa using Turn.openBands_ne_nil h.buffer')
  · exact ⟨by simpa using h.handles.agcHandles, by simpa using h.handles.captureLevel, h.handles.rnnoiseHandles⟩

theorem SameAgc.rnnoise (h : SameAgc n t t') (hch : ch < n) (rnn : FrameProc F V) :
    ∃ u, rnnoiseChannel rnn ch t = some u ∧ SameAgc n u t' := by
  have hlen : ch < t.apm.rnnoiseHandles.length := hch.trans_le h.handles.rnnoiseHandles
  refine ⟨_, by rw [rnnoiseChannel, h.buffer.data_eq hch, List.getElem?_eq_getElem hlen]; rfl, ?_⟩
  refine { h with buffer := ?_, handles := ?_ }
  · exact ⟨h.buffer.ibuf.numChannels, h.buffer.ibuf.samplesPerChannel, h.buffer.splitChannels,
      h.buffer.splittingFilter⟩
  · exact ⟨h.handles.agcHandles, h.handles.captureLevel, by simpa using h.handles.rnnoiseHandles⟩

theorem SameAgc.process (h : SameAgc n t t') (hch : ch < n) (rnn : FrameProc F V) :
    ∃ u u', processChannel rnn ch t = some u ∧ agcChannel ch t' = some u' ∧ SameAgc n u u' := by
  obtain ⟨u, u', hu, hu', hsame⟩ := h.agc hch
  obtain ⟨v, hv, hsame'⟩ := hsame.rnnoise hch rnn
  refine ⟨v, u', ?_, hu', hsame'⟩
  rw [processChannel, if_pos h.doAgc, hu]
  exact hv

/-- **The merge overwrites the full band.** -/
theorem SameAgc.merge (h : SameAgc n t t') :
    ∃ b b', t.buffer.mergeFrequencyBands = some b ∧ t'.buffer.mergeFrequencyBands = some b' ∧
      Buffer480 n b ∧ b.channels.ivalid = true ∧ b.channels.ibufData = b'.channels.ibufData := by
  obtain ⟨filter, hfilter⟩ := Option.isSome_iff_exists.mp h.buffer.splittingFilter
  have hfilter' : t'.buffer.splittingFilter = some filter := by rw [← h.splittingFilter, hfilter]
  refine ⟨_, _, by rw [AudioBuffer.mergeFrequencyBands, hfilter]; rfl,
    by rw [AudioBuffer.mergeFrequencyBands, hfilter']; rfl, ⟨?_, ?_, ?_, rfl⟩, ?_, ?_⟩
  · simpa using h.buffer.numChannels
  · simpa using h.buffer.samplesPerChannel
  · simpa using h.buffer.splitChannels
  · exact t.buffer.channels.ivalid_ibuf
  · rw [h.splitChannels]

/-- The samples of `y` interleaved over the first `480 n` of `data`. -/
def interleaved (n : ℕ) (y : ℕ → ℕ → Int16) (data : ℕ → Int16) (p : ℕ) : Int16 :=
  if p < n * rnnFrameSize then y (p % n) (p / n) else data p

theorem interleave_some (hb : Buffer480 n b) (hvalid : b.channels.ivalid = true) (data : ℕ → Int16) :
    ∃ b', forLoopM 0 n (interleaveChannel rnnFrameSize n) (b, data) =
      some (b', interleaved n b.channels.ibufData data) ∧ Buffer480 n b' := by
  have hrows := interleave_eq (id : Int16 → Int16) data hb.hasRows
  rw [IFChannelBuffer.ints_of_ivalid hvalid] at hrows
  exact ⟨_, hrows, hb.filled n _⟩

/-! ## A whole call -/

/-- The gain-controlled signal of a frame: the call without its denoiser. -/
def gainControlled (m : ApmNs F V) (data : ℕ → Int16) (n : ℕ) : Option (ℕ → ℕ → Int16) := do
  let b ← m.captureBuffer
  let b ← forLoopM 0 n (deinterleaveChannel data rnnFrameSize n) b
  let b ← b.splitIntoFrequencyBands
  let t ← forLoopM 0 n agcChannel ⟨m, b, 0, 0⟩
  let b ← t.buffer.mergeFrequencyBands
  return b.channels.ibufData

variable {m : ApmNs F V}

/-- **What a call writes back**, and that the module stays set up. -/
theorem processUseRnnoise_eq (hm : SetUp n m) (rnn : FrameProc F V) (data : ℕ → Int16) :
    ∃ y m', gainControlled m data n = some y ∧
      processUseRnnoise rnn m data rnnFrameSize n = some (interleaved n y data, m') ∧ SetUp n m' := by
  obtain ⟨b₀, hb₀, hbuffer₀⟩ := hm.captureBuffer
  obtain ⟨b₁, hb₁, hbuffer₁⟩ := deinterleave_some hbuffer₀ data
  obtain ⟨b₂, hb₂, hbuffer₂⟩ := split_some hbuffer₁
  have hstart : SameAgc n ⟨m, b₂, 0, 0⟩ ⟨m, b₂, 0, 0⟩ :=
    ⟨rfl, rfl, rfl, rfl, rfl, rfl, rfl, rfl, hbuffer₂, hbuffer₂, hm.toHandles, hm.frequency, hm.doAgc⟩
  obtain ⟨t, t', ht, ht', hsame⟩ : ∃ t t', forLoopM 0 n (processChannel rnn) ⟨m, b₂, 0, 0⟩ = some t ∧
      forLoopM 0 n agcChannel ⟨m, b₂, 0, 0⟩ = some t' ∧ SameAgc n t t' :=
    forLoopM_rel (SameAgc n) hstart fun i t t' _ hi h => h.process hi rnn
  obtain ⟨b, b', hb, hb', hbuffer, hvalid, hy⟩ := hsame.merge
  obtain ⟨b₃, hb₃, hbuffer₃⟩ := interleave_some hbuffer hvalid data
  refine ⟨b.channels.ibufData, { t.apm with captureBuffer := some b₃ }, ?_, ?_, ?_⟩
  · simp only [gainControlled, hb₀, hb₁, hb₂, ht', hb', Option.bind_eq_bind, Option.bind_some, Option.pure_def, hy]
  · simp only [processUseRnnoise, Int.toNat_natCast, hb₀, hb₁, if_pos hm.splits, hb₂, ht, hb, hb₃,
      Option.bind_eq_bind, Option.bind_some, Option.pure_def]
  · exact ⟨⟨hsame.frequency, hsame.doAgc, b₃, rfl, hbuffer₃⟩, hsame.handles.agcHandles,
      hsame.handles.captureLevel, hsame.handles.rnnoiseHandles⟩

/-- `y` is the denoiser's result on `x`, channel by channel. -/
def Denoised (rnn : FrameProc F V) (m : ApmNs F V) (n : ℕ) (x y : ℕ → ℕ → Int16) : Prop :=
  ∀ ch < n, ∀ handle, m.rnnoiseHandles[ch]? = some handle → ∀ j : Fin rnnFrameSize,
    y ch j = floatToShort ((rnn handle fun i => shortToFloat (x ch i)).2 j)

/-- The samples that a call writes back are the denoised gain-controlled ones. -/
def Composes (rnn : FrameProc F V) (m : ApmNs F V) (data : ℕ → Int16) (n : ℕ) : Prop :=
  ∃ x out m', gainControlled m data n = some x ∧
    processUseRnnoise rnn m data rnnFrameSize n = some (out, m') ∧
    Denoised rnn m n x fun ch j => out (ch + n * j)

omit [CFloat F] in
theorem interleaved_apply {y : ℕ → ℕ → Int16} {data : ℕ → Int16} (hch : ch < n) (j : Fin rnnFrameSize) :
    interleaved n y data (ch + n * j) = y ch j := interleavedRows_apply hch j.2

variable {rnn : FrameProc F V} {data : ℕ → Int16}

theorem Composes.denoised (h : Composes rnn m data n) (hm : SetUp n m) :
    ∃ x, gainControlled m data n = some x ∧ Denoised rnn m n x x := by
  obtain ⟨x, out, m'', hx, hout, hden⟩ := h
  obtain ⟨y, m', hy, hcall, -⟩ := processUseRnnoise_eq hm rnn data
  rw [hcall] at hout
  obtain ⟨rfl, rfl⟩ := Prod.mk.inj (Option.some.inj hout)
  obtain rfl := Option.some.inj (hy.symm.trans hx)
  refine ⟨y, hy, fun ch hch handle hhandle j => ?_⟩
  rw [← hden ch hch handle hhandle j]
  exact (interleaved_apply hch j).symm

theorem composes_of_denoised (hm : SetUp n m) {x : ℕ → ℕ → Int16} (hx : gainControlled m data n = some x)
    (hden : Denoised rnn m n x x) : Composes rnn m data n := by
  obtain ⟨y, m', hy, hcall, -⟩ := processUseRnnoise_eq hm rnn data
  obtain rfl := Option.some.inj (hy.symm.trans hx)
  refine ⟨y, _, m', hy, hcall, fun ch hch handle hhandle j => ?_⟩
  rw [← hden ch hch handle hhandle j]
  exact interleaved_apply hch j

/-- The samples that come back do not depend on the denoiser. -/
theorem processUseRnnoise_fst (hm : SetUp n m) (rnn rnn' : FrameProc F V) (data : ℕ → Int16) :
    (processUseRnnoise rnn' m data rnnFrameSize n).map Prod.fst =
      (processUseRnnoise rnn m data rnnFrameSize n).map Prod.fst := by
  obtain ⟨y, m', hy, hcall, -⟩ := processUseRnnoise_eq hm rnn data
  obtain ⟨y', m'', hy', hcall', -⟩ := processUseRnnoise_eq hm rnn' data
  obtain rfl := Option.some.inj (hy.symm.trans hy')
  rw [hcall, hcall']
  rfl

/-- The denoiser whose result is `v` everywhere. -/
def constantProc (v : F) : FrameProc F V := fun handle _ => (handle, fun _ => v)

/-- Of two denoisers with different results at most one can come through. -/
theorem exists_not_composes (hm : SetUp n m) (data : ℕ → Int16) (hn : 0 < n) {v v' : F}
    (hne : floatToShort v ≠ floatToShort v') : ∃ rnn : FrameProc F V, ¬ Composes rnn m data n := by
  by_contra hall
  push Not at hall
  obtain ⟨x, hx, hden⟩ := (hall (constantProc v)).denoised hm
  obtain ⟨x', hx', hden'⟩ := (hall (constantProc v')).denoised hm
  obtain rfl := Option.some.inj (hx.symm.trans hx')
  have hhandle := List.getElem?_eq_getElem (hn.trans_le hm.rnnoiseHandles)
  have h₀ := hden 0 hn _ hhandle ⟨0, by decide⟩
  exact hne (h₀.symm.trans (hden' 0 hn _ hhandle ⟨0, by decide⟩))

/-- **Gain control and the denoiser compose exactly when the denoiser changes nothing**; what comes back is the same
whatever the denoiser; so with a channel at all not every denoiser composes. -/
theorem composes_iff (rnn : FrameProc F V) (m : ApmNs F V) (data : ℕ → Int16) (n : ℕ) (hm : SetUp n m) :
    (Composes rnn m data n ↔ ∃ x, gainControlled m data n = some x ∧ Denoised rnn m n x x) ∧
    (∀ rnn' : FrameProc F V, (processUseRnnoise rnn' m data rnnFrameSize n).map Prod.fst =
      (processUseRnnoise rnn m data rnnFrameSize n).map Prod.fst) ∧
    (0 < n → ∀ v v' : F, floatToShort v ≠ floatToShort v' → ∃ rnn' : FrameProc F V, ¬ Composes rnn' m data n) := by
  refine ⟨⟨fun h => h.denoised hm, ?_⟩, fun rnn' => processUseRnnoise_fst hm rnn rnn' data,
    fun hn v v' hne => exists_not_composes hm data hn hne⟩
  rintro ⟨x, hx, hden⟩
  exact composes_of_denoised hm hx hden

/-! ## A module for one channel -/

/-- Filters and a gain control without states: every third sample in a band, and no gain. -/
def plainVendor : Vendor where
  Filter := Unit
  Agc := Unit
  Rnn := Unit
  newFilter _ := ()
  analysis _ _ x := ((), fun k ch j => x ch (3 * j + k))
  synthesis _ _ y := ((), fun ch j => y (j % 3) ch (j / 3))
  agcCreate _ := some ()
  agcInit _ h _ _ _ _ := some h
  agcSetConfig _ h _ := some h
  agcProcess h x _ _ level _ _ := ⟨h, fun k => (x k).getD fun _ => 0, level, 0⟩
  rnnoiseCreate _ := ()

/-- A new object. -/
noncomputable def newApm : ApmNs ℝ plainVendor := ⟨[], [], [], none, 0, 0, false, fun _ => 0⟩

/-- The object after `initRnnoiseModule(48000, 480, 2, true)` and `initRnnoiseModule(48000, 480, 1, true)`, which keeps
the buffer for two channels. -/
noncomputable def monoApm : ApmNs ℝ plainVendor :=
  ⟨[(), (), ()], [(), (), ()], [0, 0, 0], some (AudioBuffer.create plainVendor 480 2), 48000, 1, true, fun _ => 0⟩

theorem setUp_monoApm : SetUp 1 monoApm := by
  obtain ⟨m, hfirst, hbuffer⟩ : ∃ m, initRnnoiseModule newApm 48000 480 (2 : ℕ) true = some (true, m) ∧
      m.captureBuffer = some (AudioBuffer.create plainVendor 480 2) := ⟨_, rfl, rfl⟩
  have hinit : initRnnoiseModule m 48000 480 (1 : ℕ) true = some (true, monoApm) := by
    obtain rfl := (Prod.mk.inj (Option.some.inj hfirst)).2
    rfl
  refine setUp_init (fun b hb => ?_) hinit
  obtain rfl := Option.some.inj (hbuffer.symm.trans hb)
  have hwide := buffer480_create (F := ℝ) (V := plainVendor) 2
  exact ⟨Nat.le_of_succ_le hwide.numChannels, hwide.samplesPerChannel, hwide.splitChannels, hwide.splittingFilter⟩

theorem floatToShort_intCast (z : ℤ) : floatToShort ((z : ℚ) : ℝ) = Int16.ofInt z := by
  have htrunc : trunc ((z : ℚ) : ℝ) = z := by
    simp only [trunc, Rat.cast_intCast, Int.floor_intCast, Int.ceil_intCast, ite_self]
  rw [floatToShort, htrunc]

theorem floatToShort_zero_ne_one : floatToShort (((0 : ℤ) : ℚ) : ℝ) ≠ floatToShort (((1 : ℤ) : ℚ) : ℝ) := by
  rw [floatToShort_intCast, floatToShort_intCast]
  decide

/-- A denoiser that changes nothing composes, and another one does not. -/
theorem composes_iff_mono : Composes (fun handle x => (handle, x)) monoApm (fun _ => 1000) 1 ∧
    ∃ rnn : FrameProc ℝ plainVendor, ¬ Composes rnn monoApm (fun _ => 1000) 1 := by
  obtain ⟨y, -, hy, -⟩ := processUseRnnoise_eq setUp_monoApm (fun handle x => (handle, x)) fun _ => 1000
  have hiff := composes_iff (fun handle x => (handle, x)) monoApm (fun _ => 1000) 1 setUp_monoApm
  refine ⟨hiff.1.mpr ⟨y, hy, fun ch _ handle _ j => ?_⟩, hiff.2.2 Nat.one_pos _ _ floatToShort_zero_ne_one⟩
  exact ((floatToShort_intCast _).trans (Int16.ofInt_toInt _)).symm

/-- The object after `initRnnoiseModule(48000, 480, 1, true)`, and a frame of samples `1000`: not every denoiser
composes. -/
theorem not_composes_mono : ∃ m, initRnnoiseModule newApm 48000 480 (1 : ℕ) true = some (true, m) ∧
    ¬ ∀ rnn : FrameProc ℝ plainVendor, Composes rnn m (fun _ => 1000) 1 := by
  refine ⟨_, rfl, fun hall => ?_⟩
  have hm : SetUp 1 _ := setUp_init (fun b hb => absurd hb.symm (Option.some_ne_none b))
    (rfl : initRnnoiseModule newApm 48000 480 (1 : ℕ) true = some (true, _))
  obtain ⟨rnn, hnot⟩ := exists_not_composes hm (fun _ => 1000) Nat.one_pos floatToShort_zero_ne_one
  exact hnot (hall rnn)

end AudioProcess
