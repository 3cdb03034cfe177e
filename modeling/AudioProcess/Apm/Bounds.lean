import AudioProcess.Apm.Compose
import AudioProcess.Apm.Ns
import AudioProcess.Lib.Defined
import AudioProcess.Lib.Run

/-!
# Which configurations can be processed

Every stage of a process call is defined under a condition on sizes that no stage changes.

* `BufferSizes`, `AudioBuffer.sizes`; `TurnSizes`: the sizes during a call;
* `captureChannel_defined`, `processCapture_defined`, `processUseRnnoise_defined`: when a call is defined;
* `Apm.Processable`: the call that matches an init call is defined; `processable_afterNs`, `processable_afterRnnoise`;
* `Apm.Fits`: the frames fit the rate, and a buffer that is kept fits the call;
* **`processable_iff`**: after an init call that succeeds the matching process call is defined exactly then.
-/

namespace AudioProcess

open CFloat CLoop CInt

variable {F : Type}

/-! ## Sizes of buffers -/

/-- The sizes of an `AudioBuffer`, and whether it has a splitting filter. -/
structure BufferSizes where
  numChannels : ℕ
  samplesPerChannel : ℕ
  samplesPerSplitChannel : ℕ
  filter : Bool

def AudioBuffer.sizes {V : Vendor} (b : AudioBuffer F V) : BufferSizes :=
  ⟨b.channels.numChannels, b.channels.samplesPerChannel, b.samplesPerSplitChannel, b.splittingFilter.isSome⟩

namespace IFChannelBuffer

variable (s : IFChannelBuffer F)

/-- The sizes of an `IFChannelBuffer`. -/
def dims : ℕ × ℕ := (s.numChannels, s.samplesPerChannel)

variable [CFloat F]

@[simp] theorem dims_ibuf : s.ibuf.dims = s.dims := Prod.ext s.numChannels_ibuf s.samplesPerChannel_ibuf

@[simp] theorem dims_ibufConst : s.ibufConst.dims = s.dims :=
  Prod.ext s.numChannels_ibufConst s.samplesPerChannel_ibufConst

@[simp] theorem dims_fbufConst : s.fbufConst.dims = s.dims := by
  unfold fbufConst refreshF
  split_ifs <;> rfl

@[simp] theorem dims_fbuf : s.fbuf.dims = s.dims := s.dims_fbufConst

omit [CFloat F] in
@[simp] theorem dims_write (ch : ℕ) (v : ℕ → Int16) : (s.write ch v).dims = s.dims := rfl

omit [CFloat F] in
@[simp] theorem dims_writeF (ch : ℕ) (v : ℕ → F) : (s.writeF ch v).dims = s.dims := rfl

end IFChannelBuffer

namespace AudioBuffer

section Sizes

variable {V : Vendor} (b : AudioBuffer F V)

theorem sizes_eq_of_dims {b' : AudioBuffer F V} (hdims : b'.channels.dims = b.channels.dims)
    (hsplit : b'.samplesPerSplitChannel = b.samplesPerSplitChannel)
    (hfilter : b'.splittingFilter.isSome = b.splittingFilter.isSome) : b'.sizes = b.sizes := by
  have hn : b'.channels.numChannels = b.channels.numChannels := congrArg Prod.fst hdims
  have hs : b'.channels.samplesPerChannel = b.channels.samplesPerChannel := congrArg Prod.snd hdims
  rw [sizes, sizes, hn, hs, hsplit, hfilter]

theorem sizes_updateBands {f : ℕ → IFChannelBuffer F → IFChannelBuffer F} (hf : ∀ k s, (f k s).dims = s.dims) :
    (b.updateBands f).sizes = b.sizes := by
  unfold updateBands
  split_ifs
  · exact b.sizes_eq_of_dims (hf 0 _) rfl rfl
  · rfl

variable {z : BufferSizes} {b}

/-- Opening the bands of a channel. -/
theorem openBands_defined (hb : b.sizes = z) (ch : ℕ) {f : ℕ → IFChannelBuffer F → IFChannelBuffer F}
    (hf : ∀ k s, (f k s).dims = s.dims) : DefinedIff (fun b' => b'.sizes = z) (ch < z.numChannels)
      (if ch < b.channels.numChannels then some (b.updateBands f) else none) := by
  subst hb
  exact DefinedIff.guarded fun _ => b.sizes_updateBands hf

/-- A step that uses the splitting filter. -/
theorem filter_defined {α : Type*} {I : α → Prop} (hb : b.sizes = z) {f : V.Filter → α}
    (hf : b.splittingFilter.isSome → ∀ filter, I (f filter)) :
    DefinedIff I (z.filter = true) (b.splittingFilter.bind fun filter => some (f filter)) := by
  subst hb
  have h : DefinedIff (fun _ => b.splittingFilter.isSome) (b.splittingFilter.isSome = true) b.splittingFilter :=
    ⟨Iff.rfl, fun filter hfilter => by rw [hfilter]; rfl⟩
  exact (h.bind fun filter hfilter => DefinedIff.pure (hf hfilter filter)).congr (and_iff_left trivial)

variable [CFloat F]

theorem data_defined (hb : b.sizes = z) (ch n : ℕ) :
    DefinedIff (fun b' => b'.sizes = z) (ch < z.numChannels ∧ n ≤ z.samplesPerChannel) (b.data ch n) := by
  subst hb
  exact DefinedIff.guarded fun _ => b.sizes_eq_of_dims b.channels.dims_ibuf rfl rfl

theorem split_defined (hb : b.sizes = z) :
    DefinedIff (fun b' => b'.sizes = z) (z.filter = true) b.splitIntoFrequencyBands := by
  refine filter_defined hb fun hfilter filter => ?_
  rw [← hb]
  exact b.sizes_eq_of_dims b.channels.dims_ibufConst rfl hfilter.symm

theorem merge_defined (hb : b.sizes = z) :
    DefinedIff (fun b' => b'.sizes = z) (z.filter = true) b.mergeFrequencyBands := by
  refine filter_defined hb fun hfilter filter => ?_
  rw [← hb]
  exact b.sizes_eq_of_dims b.channels.dims_ibuf rfl hfilter.symm

end Sizes

end AudioBuffer

variable [CFloat F]

/-! ## The stages of a call -/

section Stages

variable {V : Vendor} {z : BufferSizes} {b : AudioBuffer F V} {samples n : ℕ}

/-- The buffer has `n` channels of `samples` samples. -/
def BufferSizes.HasFrame (z : BufferSizes) (samples n : ℕ) : Prop :=
  ∀ i < n, i < z.numChannels ∧ samples ≤ z.samplesPerChannel

theorem deinterleave_defined (hb : b.sizes = z) (data : ℕ → Int16) :
    DefinedIff (fun b' => b'.sizes = z) (z.HasFrame samples n)
      (forLoopM 0 n (deinterleaveChannel data samples n) b) := by
  refine forLoopM_defined hb fun i b hb => ?_
  exact ((AudioBuffer.data_defined hb i samples).bind fun b' hb' => DefinedIff.pure hb').congr (and_iff_left trivial)

theorem interleave_defined {α : Type} (hb : b.sizes = z) (store : Int16 → α) (data : ℕ → α) :
    DefinedIff (fun r => r.1.sizes = z) (z.HasFrame samples n)
      (forLoopM 0 n (interleaveChannelWith store samples n) (b, data)) := by
  refine forLoopM_defined hb fun i r hr => ?_
  exact ((AudioBuffer.data_defined hr i samples).bind fun b' hb' => DefinedIff.pure hb').congr (and_iff_left trivial)

omit [CFloat F] in
/-- The calls of the splitting filter, where they are made. -/
theorem filterCall_defined {f : AudioBuffer F V → Option (AudioBuffer F V)}
    (hf : ∀ b, b.sizes = z → DefinedIff (fun b' => b'.sizes = z) (z.filter = true) (f b)) (hb : b.sizes = z)
    (c : Prop) [Decidable c] :
    DefinedIff (fun b' => b'.sizes = z) (c → z.filter = true) (if c then f b else some b) :=
  DefinedIff.option hb (hf b hb)

/-- The sizes during a call. -/
structure TurnSizes where
  buffer : BufferSizes
  agcHandles : ℕ
  captureLevel : ℕ
  rnnoiseHandles : ℕ
  doAgc : Bool

def Turn.sizes (t : Turn F V) : TurnSizes where
  buffer := t.buffer.sizes
  agcHandles := t.apm.agcHandles.length
  captureLevel := t.apm.captureLevel.length
  rnnoiseHandles := t.apm.rnnoiseHandles.length
  doAgc := t.apm.doAgc

/-- Channel `ch` has gain control. -/
def TurnSizes.HasAgc (y : TurnSizes) (ch : ℕ) : Prop :=
  ch < y.agcHandles ∧ ch < y.captureLevel ∧ ch < y.buffer.numChannels

variable {t : Turn F V} {y : TurnSizes}

theorem agcChannel_defined (ht : t.sizes = y) (ch : ℕ) :
    DefinedIff (fun t' => t'.sizes = y) (y.HasAgc ch) (agcChannel ch t) := by
  subst ht
  refine DefinedIff.bind (DefinedIff.getElem? fun _ _ => trivial) fun handle _ => ?_
  refine DefinedIff.bind (DefinedIff.getElem? fun _ _ => trivial) fun level _ => ?_
  have hopen := AudioBuffer.openBands_defined (b := t.buffer) rfl ch fun _ s => s.dims_ibuf
  refine (hopen.bind fun b hb => DefinedIff.pure ?_).congr (and_iff_left trivial)
  simp only [Turn.sizes, List.length_set, TurnSizes.mk.injEq, and_true]
  exact (b.sizes_updateBands fun _ s => s.dims_write ch _).trans hb

theorem rnnoiseChannel_defined (ht : t.sizes = y) (rnn : FrameProc F V) (ch : ℕ) :
    DefinedIff (fun t' => t'.sizes = y)
      ((ch < y.buffer.numChannels ∧ rnnFrameSize ≤ y.buffer.samplesPerChannel) ∧ ch < y.rnnoiseHandles)
      (rnnoiseChannel rnn ch t) := by
  subst ht
  refine DefinedIff.bind (AudioBuffer.data_defined rfl ch rnnFrameSize) fun b hb => ?_
  refine (DefinedIff.bind (DefinedIff.getElem? fun _ _ => trivial) fun handle _ => DefinedIff.pure ?_).congr
    (and_iff_left trivial)
  simp only [Turn.sizes, List.length_set, TurnSizes.mk.injEq, and_true]
  exact hb

theorem processChannel_defined (ht : t.sizes = y) (rnn : FrameProc F V) (ch : ℕ) :
    DefinedIff (fun t' => t'.sizes = y)
      ((y.doAgc → y.HasAgc ch) ∧
        (ch < y.buffer.numChannels ∧ rnnFrameSize ≤ y.buffer.samplesPerChannel) ∧ ch < y.rnnoiseHandles)
      (processChannel rnn ch t) := by
  have hagc : DefinedIff (fun t' : Turn F V => t'.sizes = y) (t.apm.doAgc → y.HasAgc ch)
      (if t.apm.doAgc then agcChannel ch t else some t) := DefinedIff.option ht (agcChannel_defined ht ch)
  rw [processChannel_eq]
  refine (hagc.congr ?_).bind fun t' ht' => rnnoiseChannel_defined ht' rnn ch
  rw [← ht]
  rfl

end Stages

/-! ## Whole calls -/

variable {V : NsVendor F}

/-- The calls of a handle read the `blockLen` samples of `10` ms, and `WebRtcNs_Init` knows four rates. -/
structure NsVendor.TenMs (V : NsVendor F) : Prop where
  init : ∀ i handle frequency handle', V.nsInit i handle frequency = some handle' →
    (frequency = 8000 ∧ V.blockLen handle' = 80) ∨
    ((frequency = 16000 ∨ frequency = 32000 ∨ frequency = 48000) ∧ V.blockLen handle' = 160)
  setPolicy : ∀ i handle mode handle', V.nsSetPolicy i handle mode = some handle' →
    V.blockLen handle' = V.blockLen handle
  analyze : ∀ handle x, V.blockLen (V.nsAnalyze handle x) = V.blockLen handle
  process : ∀ handle x n, V.blockLen (V.nsProcess handle x n).1 = V.blockLen handle

/-- What is constant during a call of `processCaptureStream`: the sizes, and the block length. -/
structure NsInv (y : TurnSizes) (nsHandles blockLen : ℕ) (t : NsTurn F V) : Prop where
  sizes : t.toTurn.sizes = y
  length : t.nsHandles.length = nsHandles
  block : ∀ handle ∈ t.nsHandles, V.blockLen handle = blockLen

variable {t : NsTurn F V} {y : TurnSizes} {nsHandles blockLen samples n : ℕ}

omit [CFloat F] in
/-- There always is a lowest band. -/
theorem bandsF_zero {V : Vendor} (b : AudioBuffer F V) (ch : ℕ) : ∃ band, b.bandsF ch 0 = some band := by
  unfold AudioBuffer.bandsF
  cases hsplit : b.splitChannels with
  | nil => exact ⟨_, rfl⟩
  | cons s ss => exact ⟨_, rfl⟩

theorem nsChannel_defined (hV : V.TenMs) (ht : NsInv y nsHandles blockLen t) (ch : ℕ) :
    DefinedIff (NsInv y nsHandles blockLen)
      (ch < nsHandles ∧ ch < y.buffer.numChannels ∧ blockLen ≤ y.buffer.samplesPerSplitChannel)
      (nsChannel ch t) := by
  obtain ⟨rfl, rfl, hblock⟩ := ht
  have hcalls : DefinedIff (NsInv t.toTurn.sizes t.nsHandles.length blockLen) (ch < t.nsHandles.length ∧
      ch < t.buffer.sizes.numChannels ∧ ¬ t.buffer.sizes.samplesPerSplitChannel < blockLen ∧
        ch < t.buffer.sizes.numChannels ∧ True) (nsChannel ch t) := by
    refine DefinedIff.bind (DefinedIff.getElem? hblock) fun handle hhandle => ?_
    refine DefinedIff.bind (AudioBuffer.openBands_defined rfl ch fun _ s => s.dims_fbufConst) fun b hb => ?_
    obtain ⟨band, hband⟩ := bandsF_zero b ch
    have hsplit : b.samplesPerSplitChannel = t.buffer.sizes.samplesPerSplitChannel :=
      congrArg BufferSizes.samplesPerSplitChannel hb
    rw [hband, ← hhandle, ← hsplit]
    refine DefinedIff.unless (DefinedIff.bind (AudioBuffer.openBands_defined hb ch fun _ s => s.dims_fbuf) fun b' hb' =>
      DefinedIff.pure ⟨?_, List.length_set, fun handle' hmem => ?_⟩)
    · simp only [Turn.sizes, TurnSizes.mk.injEq, and_true]
      exact (b'.sizes_updateBands fun _ s => s.dims_writeF ch _).trans hb'
    · rcases List.mem_or_eq_of_mem_set hmem with hold | rfl
      · rw [hblock handle' hold, hhandle]
      · rw [hV.process, hV.analyze]
  refine hcalls.congr ?_
  simp only [not_lt, and_true]
  exact ⟨fun h => ⟨h.1, h.2.1, h.2.2.1⟩, fun h => ⟨h.1, h.2.1, h.2.2, h.2.1⟩⟩

theorem captureChannel_defined (hV : V.TenMs) (ht : NsInv y nsHandles blockLen t) (ch : ℕ) :
    DefinedIff (NsInv y nsHandles blockLen) ((y.doAgc → y.HasAgc ch) ∧
        ch < nsHandles ∧ ch < y.buffer.numChannels ∧ blockLen ≤ y.buffer.samplesPerSplitChannel)
      (captureChannel ch t) := by
  have hagc : DefinedIff (fun t' : Turn F V.toVendor => t'.sizes = y) (t.apm.doAgc → y.HasAgc ch)
      (if t.apm.doAgc then agcChannel ch t.toTurn else some t.toTurn) :=
    DefinedIff.option ht.sizes (agcChannel_defined ht.sizes ch)
  rw [captureChannel_eq]
  refine (hagc.congr ?_).bind fun turn hturn =>
    nsChannel_defined (t := { t with toTurn := turn }) hV ⟨hturn, ht.length, ht.block⟩ ch
  rw [← ht.sizes]
  rfl

/-- The sizes at the start of a call. -/
def ApmNs.sizes {V : Vendor} (m : ApmNs F V) (b : AudioBuffer F V) : TurnSizes := Turn.sizes ⟨m, b, 0, 0⟩

/-- **When a call of `processCaptureStream` is defined.** -/
theorem processCapture_defined {α : Type} (hV : V.TenMs) {m : Apm F V} {b : AudioBuffer F V.toVendor}
    (hb : m.captureBuffer = some b) (hblock : ∀ handle ∈ m.nsHandles, V.blockLen handle = blockLen)
    (load : α → Int16) (store : Int16 → α) (data : ℕ → α) (frames channels : ℤ) :
    (m.processCapture load store data frames channels).isSome ↔
      b.sizes.HasFrame frames.toNat channels.toNat ∧ (m.HasBands → b.sizes.filter = true) ∧
      ∀ ch < m.channels.toNat, (m.doAgc → (m.toApmNs.sizes b).HasAgc ch) ∧
        ch < m.nsHandles.length ∧ ch < b.sizes.numChannels ∧ blockLen ≤ b.sizes.samplesPerSplitChannel := by
  have hcall : DefinedIff (fun _ => True) (b.sizes.HasFrame frames.toNat channels.toNat ∧
      (m.HasBands → b.sizes.filter = true) ∧ (∀ ch < m.channels.toNat,
        (m.doAgc → (m.toApmNs.sizes b).HasAgc ch) ∧
        ch < m.nsHandles.length ∧ ch < b.sizes.numChannels ∧ blockLen ≤ b.sizes.samplesPerSplitChannel) ∧
      (m.HasBands → b.sizes.filter = true) ∧ b.sizes.HasFrame frames.toNat channels.toNat ∧ True)
      (m.processCapture load store data frames channels) := by
    rw [m.processCapture_eq, hb, Option.bind_some]
    refine DefinedIff.bind (deinterleave_defined rfl _) fun b₁ hb₁ => ?_
    refine DefinedIff.bind (filterCall_defined (fun _ => AudioBuffer.split_defined) hb₁ _) fun b₂ hb₂ => ?_
    have hstart : NsInv (m.toApmNs.sizes b) m.nsHandles.length blockLen
        ⟨⟨m.toApmNs, b₂, 0, 0⟩, m.nsHandles⟩ := by
      refine ⟨?_, rfl, hblock⟩
      rw [ApmNs.sizes, Turn.sizes, Turn.sizes, hb₂]
    refine DefinedIff.bind (forLoopM_defined hstart fun ch t ht => captureChannel_defined hV ht ch) fun t ht => ?_
    have hbuffer : t.buffer.sizes = b.sizes := congrArg TurnSizes.buffer ht.sizes
    refine DefinedIff.bind (filterCall_defined (fun _ => AudioBuffer.merge_defined) hbuffer _) fun b₃ hb₃ => ?_
    exact DefinedIff.bind (interleave_defined hb₃ store data) fun r _ => DefinedIff.pure trivial
  rw [hcall.isSome_iff]
  exact ⟨fun h => ⟨h.1, h.2.1, h.2.2.1⟩, fun h => ⟨h.1, h.2.1, h.2.2, h.2.1, h.1, trivial⟩⟩

/-- **When a call of `processUseRnnoise` is defined.** -/
theorem processUseRnnoise_defined {V : Vendor} {m : ApmNs F V} {b : AudioBuffer F V} (hb : m.captureBuffer = some b)
    (rnn : FrameProc F V) (data : ℕ → Int16) (frames channels : ℤ) :
    (AudioProcess.processUseRnnoise rnn m data frames channels).isSome ↔
      b.sizes.HasFrame frames.toNat channels.toNat ∧ (m.Splits → b.sizes.filter = true) ∧
      ∀ ch < channels.toNat, (m.doAgc → (m.sizes b).HasAgc ch) ∧
        (ch < b.sizes.numChannels ∧ rnnFrameSize ≤ b.sizes.samplesPerChannel) ∧ ch < m.rnnoiseHandles.length := by
  have hcall : DefinedIff (fun _ => True) (b.sizes.HasFrame frames.toNat channels.toNat ∧
      (m.Splits → b.sizes.filter = true) ∧ (∀ ch < channels.toNat, (m.doAgc → (m.sizes b).HasAgc ch) ∧
        (ch < b.sizes.numChannels ∧ rnnFrameSize ≤ b.sizes.samplesPerChannel) ∧ ch < m.rnnoiseHandles.length) ∧
      (m.Splits → b.sizes.filter = true) ∧ b.sizes.HasFrame frames.toNat channels.toNat ∧ True)
      (AudioProcess.processUseRnnoise rnn m data frames channels) := by
    rw [processUseRnnoise_bind, hb, Option.bind_some]
    refine DefinedIff.bind (deinterleave_defined rfl _) fun b₁ hb₁ => ?_
    refine DefinedIff.bind (filterCall_defined (fun _ => AudioBuffer.split_defined) hb₁ _) fun b₂ hb₂ => ?_
    have hstart : Turn.sizes ⟨m, b₂, 0, 0⟩ = m.sizes b := by
      rw [ApmNs.sizes, Turn.sizes, Turn.sizes, hb₂]
    refine DefinedIff.bind (forLoopM_defined (I := fun t => t.sizes = m.sizes b) hstart fun ch t ht =>
      processChannel_defined ht rnn ch) fun t ht => ?_
    have hbuffer : t.buffer.sizes = b.sizes := congrArg TurnSizes.buffer ht
    refine DefinedIff.bind (filterCall_defined (fun _ => AudioBuffer.merge_defined) hbuffer _) fun b₃ hb₃ => ?_
    exact DefinedIff.bind (interleave_defined hb₃ id data) fun r _ => DefinedIff.pure trivial
  rw [hcall.isSome_iff]
  exact ⟨fun h => ⟨h.1, h.2.1, h.2.2.1⟩, fun h => ⟨h.1, h.2.1, h.2.2, h.2.1, h.1, trivial⟩⟩

/-! ## Init calls and their process calls -/

/-- The frame length has a splitting filter. -/
def Splittable (frames : ℕ) : Prop := frames = kSamplesPer32kHzChannel ∨ frames = kSamplesPer48kHzChannel

instance (frames : ℕ) : Decidable (Splittable frames) := inferInstanceAs (Decidable (_ ∨ _))

theorem sizes_create (V : Vendor) (frames n : ℕ) : (AudioBuffer.create (F := F) V frames n).sizes =
    ⟨n, frames, if Splittable frames then 160 else frames, decide (Splittable frames)⟩ := by
  unfold AudioBuffer.create
  by_cases h : Splittable frames
  · rw [if_pos h, decide_eq_true h, if_pos (show _ ∨ _ from h)]
    rfl
  · rw [if_neg h, decide_eq_false h, if_neg (show ¬ (_ ∨ _) from h)]
    rfl

/-- The process calls that match an init call are defined on all data. -/
def Apm.Processable (rnn : FrameProc F V.toVendor) (m : Apm F V) : InitCall → Prop
  | .ns _ _ frames channels _ => (∀ data, (m.processCaptureStream data frames channels).isSome) ∧
      ∀ data, (m.processCaptureStreamFloat data frames channels).isSome
  | .rnnoise _ frames channels _ => ∀ data, (m.processUseRnnoise rnn data frames channels).isSome

/-- The call fits the module `m` that it is made on: the frame length of `initNsModule` has a splitting filter
when the rate has bands and holds `10` ms, and a buffer that `initRnnoiseModule` keeps is large enough, and has a
splitting filter when there is gain control. -/
def Apm.Fits (m : Apm F V) : InitCall → Prop
  | .ns frequency _ frames channels _ =>
      (frequency = 32000 ∨ frequency = 48000 → frames = 320 ∨ frames = 480) ∧
      (0 < channels → (frequency = 8000 → 80 ≤ frames) ∧ (frequency = 16000 → 160 ≤ frames))
  | .rnnoise _ _ channels doAgc => ∀ b, m.captureBuffer = some b →
      (0 < channels → channels ≤ b.channels.numChannels ∧ 480 ≤ b.channels.samplesPerChannel) ∧
      (doAgc → b.splittingFilter.isSome)

variable {calls : Calls} {m m' : Apm F V} {frequency : ℕ} {nsMode frames channels : ℤ} {doAgc : Bool}

omit [CFloat F] in
/-- The gain control of the channels that `addAgcs` adds. -/
theorem hasAgc_addAgcs {k : ℕ} (m : Apm F V)
    (hagc : doAgc → ∀ i < k, ∃ handle, createAgc V.toVendor frequency i = some handle) (hdo : doAgc) {ch : ℕ}
    (hch : ch < k) : ch < (m.addAgcs frequency k doAgc).agcHandles.length ∧
      ch < (m.addAgcs frequency k doAgc).captureLevel.length := by
  have hlen := length_created (hagc hdo)
  simp only [Apm.addAgcs, if_pos hdo, List.length_append, List.length_replicate, hlen]
  omega

omit [CFloat F] in
theorem blockLen_created (hV : V.TenMs) {k : ℕ} {handle : V.Ns}
    (hmem : handle ∈ created k (createNs V calls frequency nsMode)) :
    V.blockLen handle = if frequency = 8000 then 80 else 160 := by
  obtain ⟨i, -, hi⟩ := List.mem_filterMap.mp hmem
  obtain ⟨h₀, h₁, -, hinit, hpolicy⟩ := createNs_eq_some hi
  rw [hV.setPolicy i h₁ nsMode handle hpolicy]
  rcases hV.init i h₀ frequency h₁ hinit with ⟨rfl, hlen⟩ | ⟨hrate, hlen⟩
  · exact hlen
  · rw [hlen, if_neg (by omega)]

omit [CFloat F] in
/-- A channel is only created at a rate that `WebRtcNs_Init` knows. -/
theorem rate_of_created (hV : V.TenMs) {i : ℕ} {handle : V.Ns}
    (h : createNs V calls frequency nsMode i = some handle) :
    frequency = 8000 ∨ frequency = 16000 ∨ frequency = 32000 ∨ frequency = 48000 := by
  obtain ⟨h₀, h₁, -, hinit, -⟩ := createNs_eq_some h
  rcases hV.init i h₀ frequency h₁ hinit with ⟨hrate, -⟩ | ⟨hrate, -⟩
  · exact Or.inl hrate
  · exact Or.inr hrate

omit [CFloat F] in
/-- The block length against the frame length. -/
theorem fits_iff (hrate : 0 < channels →
      frequency = 8000 ∨ frequency = 16000 ∨ frequency = 32000 ∨ frequency = 48000) :
    m.Fits (.ns frequency nsMode frames channels doAgc) ↔
      (frequency = 32000 ∨ frequency = 48000 → Splittable frames.toNat) ∧ (0 < channels →
        (if frequency = 8000 then 80 else 160) ≤ if Splittable frames.toNat then 160 else frames.toNat) := by
  have hsplit : Splittable frames.toNat ↔ frames = 320 ∨ frames = 480 := by
    unfold Splittable kSamplesPer32kHzChannel kSamplesPer48kHzChannel
    omega
  rw [Apm.Fits]
  by_cases hframes : frames = 320 ∨ frames = 480
  · rw [if_pos (hsplit.mpr hframes), hsplit]
    split_ifs <;> omega
  · rw [if_neg (mt hsplit.mp hframes), hsplit]
    split_ifs <;> omega

/-- **After `initNsModule`.** -/
theorem processable_afterNs (hV : V.TenMs) (rnn : FrameProc F V.toVendor)
    (hinit : m.initNsModule calls frequency nsMode frames channels doAgc = (.ok true, m')) :
    m'.Processable rnn (.ns frequency nsMode frames channels doAgc) ↔
      m.Fits (.ns frequency nsMode frames channels doAgc) := by
  obtain ⟨rfl, hchannels, hsize, hns, hagc⟩ := initNsModule_ok hinit
  let b : AudioBuffer F V.toVendor := AudioBuffer.create V.toVendor frames.toNat channels.toNat
  let m' := m.afterNs calls frequency nsMode frames channels doAgc
  have hb : m'.captureBuffer = some b := rfl
  have hsizes : b.sizes = ⟨channels.toNat, frames.toNat, if Splittable frames.toNat then 160 else frames.toNat,
    decide (Splittable frames.toNat)⟩ := sizes_create V.toVendor frames.toNat channels.toNat
  have hhandles : m'.nsHandles = created channels.toNat (createNs V calls frequency nsMode) := by
    simp [m', Apm.afterNs]
  have hlen : m'.nsHandles.length = channels.toNat := by rw [hhandles, length_created hns]
  have hbands : m'.HasBands ↔ frequency = 32000 ∨ frequency = 48000 := by
    simp [m', Apm.afterNs, Apm.HasBands, Apm.startNs]
  have hch : m'.channels = channels := by simp [m', Apm.afterNs, Apm.startNs]
  have hdo : m'.doAgc = doAgc := by simp [m', Apm.afterNs, Apm.startNs]
  have hlevels : m'.doAgc → ∀ ch < channels.toNat, (m'.toApmNs.sizes b).HasAgc ch := by
    intro h ch hlt
    rw [hdo] at h
    obtain ⟨hagcs, hlevels⟩ := hasAgc_addAgcs { m.startNs frequency nsMode channels doAgc with
      nsHandles := created channels.toNat (createNs V calls frequency nsMode) } hagc h hlt
    refine ⟨hagcs, hlevels, ?_⟩
    show ch < b.sizes.numChannels
    rw [hsizes]
    exact hlt
  have hcall : ∀ {α : Type} (load : α → Int16) (store : Int16 → α) (data : ℕ → α),
      (m'.processCapture load store data frames channels).isSome ↔
        m.Fits (.ns frequency nsMode frames channels doAgc) := by
    intro α load store data
    rw [processCapture_defined hV hb (fun handle hmem => blockLen_created hV (hhandles ▸ hmem)) load store data,
      hsizes, hbands, hlen, hch, fits_iff, decide_eq_true_iff]
    · constructor
      · rintro ⟨-, hfilter, hloop⟩
        exact ⟨hfilter, fun hpos => (hloop 0 (by omega)).2.2.2⟩
      · rintro ⟨hfilter, hblock⟩
        exact ⟨fun i hi => ⟨hi, le_rfl⟩, hfilter, fun ch hlt =>
          ⟨fun h => hlevels h ch hlt, hlt, hlt, hblock (by omega)⟩⟩
    · intro hpos
      obtain ⟨handle, hhandle⟩ := hns 0 (by omega)
      exact rate_of_created hV hhandle
  constructor
  · exact fun h => (hcall id id fun _ => 0).mp (h.1 fun _ => 0)
  · exact fun h => ⟨fun data => (hcall id id data).mpr h, fun data => (hcall floatToS16 s16ToFloat data).mpr h⟩

theorem isSome_processUseRnnoise (m : Apm F V) (rnn : FrameProc F V.toVendor) (data : ℕ → Int16)
    (frames channels : ℤ) : (m.processUseRnnoise rnn data frames channels).isSome =
      (AudioProcess.processUseRnnoise rnn m.toApmNs data frames channels).isSome := by
  unfold Apm.processUseRnnoise
  cases AudioProcess.processUseRnnoise rnn m.toApmNs data frames channels <;> rfl

theorem hasFrame_iff {z : BufferSizes} {samples : ℕ} : z.HasFrame samples channels.toNat ↔
    (0 < channels → channels ≤ z.numChannels ∧ samples ≤ z.samplesPerChannel) := by
  constructor
  · intro h hpos
    have hlast := h (channels.toNat - 1) (by omega)
    exact ⟨by omega, hlast.2⟩
  · intro h i hi
    have hfit := h (by omega)
    exact ⟨by omega, hfit.2⟩

/-- The buffer that `initRnnoiseModule` keeps, or makes to measure. -/
theorem fits_rnnoise_iff {b : AudioBuffer F V.toVendor} (hbuffer : m.rnnoiseBuffer calls 480 channels = .ok b) :
    m.Fits (.rnnoise 48000 480 channels doAgc) ↔
      (0 < channels → channels ≤ b.channels.numChannels ∧ 480 ≤ b.channels.samplesPerChannel) ∧
      (doAgc → b.splittingFilter.isSome) := by
  unfold Apm.rnnoiseBuffer at hbuffer
  rw [Apm.Fits]
  cases hm : m.captureBuffer with
  | some b' =>
      rw [hm] at hbuffer
      obtain rfl := Except.ok.inj hbuffer
      exact ⟨fun h => h b' rfl, fun h b' hb' => Option.some.inj hb' ▸ h⟩
  | none =>
      rw [hm] at hbuffer
      refine iff_of_true (fun b' hb' => absurd hb' (Option.some_ne_none b').symm) ?_
      simp only [newAudioBuffer] at hbuffer
      split_ifs at hbuffer with hover hthrow
      · obtain rfl := Except.ok.inj hbuffer
        have hsizes : (AudioBuffer.create (F := F) V.toVendor (Int.toNat 480) channels.toNat).sizes =
          ⟨channels.toNat, 480, 160, true⟩ := sizes_create V.toVendor 480 channels.toNat
        have hn : (AudioBuffer.create (F := F) V.toVendor (Int.toNat 480) channels.toNat).channels.numChannels =
          channels.toNat := congrArg BufferSizes.numChannels hsizes
        have hs := congrArg BufferSizes.samplesPerChannel hsizes
        refine ⟨fun _ => ⟨?_, hs.ge⟩, fun _ => congrArg BufferSizes.filter hsizes⟩
        rw [hn]
        exact Int.self_le_toNat channels

/-- **After `initRnnoiseModule`.** -/
theorem processable_afterRnnoise (rnn : FrameProc F V.toVendor)
    (hinit : m.initRnnoiseModule calls frequency frames channels doAgc = (.ok true, m')) :
    m'.Processable rnn (.rnnoise frequency frames channels doAgc) ↔
      m.Fits (.rnnoise frequency frames channels doAgc) := by
  obtain ⟨rfl, rfl, b, hbuffer, rfl, hagc⟩ := initRnnoiseModule_ok hinit
  let m' := m.afterRnnoise b 48000 channels doAgc
  have hb : m'.captureBuffer = some b := by simp [m', Apm.afterRnnoise]
  have hsplits : m'.Splits ↔ doAgc := by simp [m', Apm.afterRnnoise, ApmNs.Splits]
  have hlen : m'.rnnoiseHandles.length = m.rnnoiseHandles.length + channels.toNat := by
    simp [m', Apm.afterRnnoise]
  have hdo : m'.doAgc = doAgc := by simp [m', Apm.afterRnnoise]
  have hcall : ∀ data, (m'.processUseRnnoise rnn data 480 channels).isSome ↔
      m.Fits (.rnnoise 48000 480 channels doAgc) := by
    intro data
    have hframe : b.sizes.HasFrame 480 channels.toNat ↔
      (0 < channels → channels ≤ b.channels.numChannels ∧ 480 ≤ b.channels.samplesPerChannel) := hasFrame_iff
    rw [isSome_processUseRnnoise, processUseRnnoise_defined hb, hsplits, fits_rnnoise_iff hbuffer, ← hframe]
    constructor
    · exact fun h => ⟨h.1, h.2.1⟩
    · rintro ⟨hfit, hfilter⟩
      refine ⟨hfit, hfilter, fun ch hlt => ⟨fun h => ?_, hfit ch hlt, by omega⟩⟩
      rw [hdo] at h
      obtain ⟨hagcs, hlevels⟩ := hasAgc_addAgcs { m with
        captureBuffer := some b
        frequency := 48000
        channels := channels
        doAgc := doAgc
        rnnoiseHandles := m.rnnoiseHandles ++ (List.range channels.toNat).map V.rnnoiseCreate } hagc h hlt
      exact ⟨hagcs, hlevels, (hfit ch hlt).1⟩
  exact ⟨fun h => (hcall fun _ => 0).mp (h fun _ => 0), fun h data => (hcall data).mpr h⟩

/-- The module after a sequence of init calls, each with the third-party calls that succeed. -/
def Apm.afterInits (m : Apm F V) (inits : List (Calls × InitCall)) : Apm F V :=
  Runs.run (fun m a => (m.init a.1 a.2).2) m inits

/-- **After any init calls, an init call that succeeds can be processed exactly when** it fits the module that it
was made on. -/
theorem processable_iff (V : NsVendor F) (hV : V.TenMs) (rnn : FrameProc F V.toVendor) (m : Apm F V)
    (inits : List (Calls × InitCall)) (calls : Calls) (a : InitCall) (m' : Apm F V)
    (hinit : (m.afterInits inits).init calls a = (.ok true, m')) :
    m'.Processable rnn a ↔ (m.afterInits inits).Fits a := by
  cases a with
  | ns frequency nsMode frames channels doAgc => exact processable_afterNs hV rnn hinit
  | rnnoise frequency frames channels doAgc => exact processable_afterRnnoise rnn hinit

/-! ## A module without states -/

/-- Noise suppression that does nothing; its state is the block length. -/
noncomputable def plainNs : NsVendor ℝ where
  toVendor := plainVendor
  Ns := ℕ
  nsCreate _ := some 0
  nsInit _ _ frequency :=
    if frequency = 8000 then some 80
    else if frequency = 16000 ∨ frequency = 32000 ∨ frequency = 48000 then some 160
    else none
  nsSetPolicy _ handle _ := some handle
  blockLen handle := handle
  nsAnalyze handle _ := handle
  nsProcess handle x _ := (handle, fun k => (x k).getD fun _ => 0)

theorem tenMs_plainNs : plainNs.TenMs where
  init := by
    intro _ _ frequency handle' h
    simp only [plainNs] at h
    split_ifs at h with h8 h16
    · exact Or.inl ⟨h8, (Option.some.inj h).symm⟩
    · exact Or.inr ⟨h16, (Option.some.inj h).symm⟩
  setPolicy _ _ _ _ h := (Option.some.inj h).symm
  analyze _ _ := rfl
  process _ _ _ := rfl

/-- A new object. -/
noncomputable def plainApm : Apm ℝ plainNs where
  toApmNs := newApm
  nsHandles := []
  nsMode := 0

/-- Mono at 16000 Hz with frames of 160 samples, after a module for 32000 Hz. -/
theorem processable_iff_mono :
    ((plainApm.afterInits [(.all, .ns 32000 0 320 2 true)]).afterNs .all 16000 0 160 1 false).Processable
      (fun handle x => (handle, x)) (.ns 16000 0 160 1 false) := by
  refine (processable_iff plainNs tenMs_plainNs (fun handle x => (handle, x)) plainApm
    [(.all, .ns 32000 0 320 2 true)] .all (.ns 16000 0 160 1 false) _ rfl).mpr ⟨?_, ?_⟩
  · exact fun h => absurd h (by decide)
  · exact fun _ => ⟨fun h => absurd h (by decide), fun _ => le_rfl⟩

/-- Frames of 160 samples are accepted at 32000 Hz, and have no splitting filter. -/
theorem not_processable_mono :
    (plainApm.init .all (.ns 32000 0 160 1 false)).1 = .ok true ∧
      ¬ (plainApm.init .all (.ns 32000 0 160 1 false)).2.Processable (fun handle x => (handle, x))
        (.ns 32000 0 160 1 false) := by
  refine ⟨rfl, fun h => ?_⟩
  have hinit : plainApm.initNsModule .all 32000 0 160 1 false = (.ok true, plainApm.afterNs .all 32000 0 160 1 false) :=
    rfl
  have hfits := (processable_afterNs tenMs_plainNs _ hinit).mp h
  exact absurd (hfits.1 (Or.inl rfl)) (by decide)

end AudioProcess
