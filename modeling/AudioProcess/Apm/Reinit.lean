import AudioProcess.Apm.Bounds
import AudioProcess.Apm.NoAgc
import AudioProcess.Lib.Related

/-!
# Initialising a module again

A process call reads the first entries of the vectors of handles and levels, and the capture buffer. Two modules
that agree on these return the same samples on every run of frames.

* `Agree`: the first entries; `TurnAgree`: during a call; `agcChannel_rel`: the gain control keeps it;
* `NsAgree`, `processCapture_rel`: `processCaptureStream` in two modules;
* `RnnAgree`, `processUseRnnoise_rel`: `processUseRnnoise` in two modules, for filters that read their channels
  (`Vendor.Reads`);
* `Clean`: nothing stale shadows what an init call adds; `captureLevel_init`: it can;
* **`freshFor_of_clean`**: after any history an init call on a clean module gives a fresh one.
-/

namespace AudioProcess

open CFloat CLoop Mem

variable {F : Type}

/-! ## Gain control -/

/-- The settings that an init call leaves for the process calls. -/
structure Settings where
  frequency : ℕ
  channels : ℤ
  doAgc : Bool

section Agc

def ApmNs.settings {V : Vendor} (m : ApmNs F V) : Settings := ⟨m.frequency, m.channels, m.doAgc⟩

variable {V : Vendor} {n : ℕ} {z : Settings} {rnnoise : Prop}

/-- Two modules with the settings `z` agree on what a call reads of their channels; on the denoisers only in the
calls that have them. -/
structure Agree (z : Settings) (rnnoise : Prop) (m m' : ApmNs F V) : Prop where
  settings : m.settings = z
  settings' : m'.settings = z
  agcHandles : z.doAgc → ∀ ch < z.channels.toNat, m.agcHandles[ch]? = m'.agcHandles[ch]?
  captureLevel : z.doAgc → ∀ ch < z.channels.toNat, m.captureLevel[ch]? = m'.captureLevel[ch]?
  rnnoiseHandles : rnnoise → ∀ ch < z.channels.toNat, m.rnnoiseHandles[ch]? = m'.rnnoiseHandles[ch]?

/-- Two turns agree; their buffers are related by `R`. -/
structure TurnAgree (R : AudioBuffer F V → AudioBuffer F V → Prop) (z : Settings) (rnnoise : Prop)
    (t t' : Turn F V) : Prop where
  apm : Agree z rnnoise t.apm t'.apm
  buffer : R t.buffer t'.buffer
  captureLevel : t.captureLevel = t'.captureLevel
  streamIsSaturated : t.streamIsSaturated = t'.streamIsSaturated

variable [CFloat F]

/-- The bands that channel `ch` gives are the same, and writing them keeps `R`. -/
structure OpenAgree (R : AudioBuffer F V → AudioBuffer F V → Prop) (ch : ℕ) (b b' : AudioBuffer F V) : Prop where
  bands : b.bands ch = b'.bands ch
  numBands : b.numBands = b'.numBands
  samplesPerSplitChannel : b.samplesPerSplitChannel = b'.samplesPerSplitChannel
  write : ∀ out : ℕ → ℕ → Int16,
    R (b.updateBands fun k s => s.write ch (out k)) (b'.updateBands fun k s => s.write ch (out k))

omit [CFloat F] in
/-- Agreement on the first entries is kept when an entry is replaced on both sides. -/
theorem getElem?_set_congr {α : Type*} {l l' : List α} (h : ∀ ch < n, l[ch]? = l'[ch]?) (i : ℕ) (a : α) :
    ∀ ch < n, (l.set i a)[ch]? = (l'.set i a)[ch]? := by
  intro ch hch
  rw [List.getElem?_set', List.getElem?_set', h ch hch]

variable {R : AudioBuffer F V → AudioBuffer F V → Prop} {t t' : Turn F V} {ch : ℕ}

/-- **The gain control keeps the agreement.** -/
theorem agcChannel_rel (h : TurnAgree R z rnnoise t t') (hdo : z.doAgc) (hch : ch < z.channels.toNat)
    (hopen : Option.Rel (OpenAgree R ch) (t.buffer.splitBands ch) (t'.buffer.splitBands ch)) :
    Option.Rel (TurnAgree R z rnnoise) (agcChannel ch t) (agcChannel ch t') := by
  unfold agcChannel
  refine rel_bind (rel_eq_iff.mpr (h.apm.agcHandles hdo ch hch)) ?_
  rintro handle _ rfl
  refine rel_bind (rel_eq_iff.mpr (h.apm.captureLevel hdo ch hch)) ?_
  rintro level _ rfl
  refine rel_bind hopen fun b b' hb => Option.Rel.some ?_
  rw [hb.bands, hb.numBands, hb.samplesPerSplitChannel, h.captureLevel, h.streamIsSaturated]
  exact
    { apm := { h.apm with
        agcHandles := fun hdo => getElem?_set_congr (h.apm.agcHandles hdo) ch _
        captureLevel := fun hdo => getElem?_set_congr (h.apm.captureLevel hdo) ch _ }
      buffer := hb.write _
      captureLevel := rfl
      streamIsSaturated := rfl }

/-- The gain control where there is one. -/
theorem agcStep_rel (h : TurnAgree R z rnnoise t t') (hch : ch < z.channels.toNat)
    (hopen : z.doAgc → Option.Rel (OpenAgree R ch) (t.buffer.splitBands ch) (t'.buffer.splitBands ch)) :
    Option.Rel (TurnAgree R z rnnoise) (if t.apm.doAgc then agcChannel ch t else some t)
      (if t'.apm.doAgc then agcChannel ch t' else some t') := by
  have hdo : t.apm.doAgc = z.doAgc := congrArg Settings.doAgc h.apm.settings
  have hdo' : t'.apm.doAgc = z.doAgc := congrArg Settings.doAgc h.apm.settings'
  rw [hdo, hdo']
  exact rel_ite Iff.rfl (fun hagc => agcChannel_rel h hagc hch (hopen hagc)) fun _ => Option.Rel.some h

end Agc

variable [CFloat F] {V : NsVendor F} {z : Settings}

/-! ## `processCaptureStream` -/

section Capture

/-- Two turns with the noise suppression agree. -/
structure NsTurnAgree (z : Settings) (t t' : NsTurn F V) : Prop extends TurnAgree Eq z False t.toTurn t'.toTurn where
  nsHandles : t.nsHandles = t'.nsHandles

variable {t t' : NsTurn F V} {ch : ℕ}

theorem nsChannel_rel (h : NsTurnAgree z t t') (ch : ℕ) :
    Option.Rel (NsTurnAgree z) (nsChannel ch t) (nsChannel ch t') := by
  unfold nsChannel
  rw [h.buffer, h.nsHandles]
  refine rel_bind (rel_eq_iff.mpr rfl) ?_
  rintro handle _ rfl
  refine rel_bind (rel_eq_iff.mpr rfl) ?_
  rintro b _ rfl
  refine rel_bind (rel_eq_iff.mpr rfl) ?_
  rintro band _ rfl
  refine rel_ite Iff.rfl (fun _ => Option.Rel.none) fun _ => rel_bind (rel_eq_iff.mpr rfl) ?_
  rintro b' _ rfl
  exact Option.Rel.some { h with buffer := rfl, nsHandles := rfl }

/-- Equal buffers give equal bands. -/
theorem splitBands_rel_eq {V : Vendor} {b b' : AudioBuffer F V} (h : b = b') (ch : ℕ) :
    Option.Rel (OpenAgree Eq ch) (b.splitBands ch) (b'.splitBands ch) := by
  subst h
  cases b.splitBands ch with
  | none => exact Option.Rel.none
  | some c => exact Option.Rel.some ⟨rfl, rfl, rfl, fun _ => rfl⟩

theorem captureChannel_rel (h : NsTurnAgree z t t') (hch : ch < z.channels.toNat) :
    Option.Rel (NsTurnAgree z) (captureChannel ch t) (captureChannel ch t') := by
  rw [captureChannel_eq, captureChannel_eq]
  refine rel_bind (agcStep_rel h.toTurnAgree hch fun _ => splitBands_rel_eq h.buffer ch) fun turn turn' hturn => ?_
  have hturn' : NsTurnAgree z { t with toTurn := turn } { t' with toTurn := turn' } := ⟨hturn, h.nsHandles⟩
  exact nsChannel_rel hturn' ch

/-- Two modules agree on what a call of `processCaptureStream` reads. -/
structure NsAgree (z : Settings) (m m' : Apm F V) : Prop extends Agree z False m.toApmNs m'.toApmNs where
  captureBuffer : m.captureBuffer = m'.captureBuffer
  nsHandles : m.nsHandles = m'.nsHandles

omit [CFloat F] in
theorem NsAgree.hasBands_iff {m m' : Apm F V} (h : NsAgree z m m') : m.HasBands ↔ m'.HasBands := by
  have hfrequency : m.frequency = z.frequency := congrArg Settings.frequency h.settings
  have hfrequency' : m'.frequency = z.frequency := congrArg Settings.frequency h.settings'
  unfold Apm.HasBands
  rw [hfrequency, hfrequency']

/-- **Modules that agree return the same samples**, and agree afterwards. -/
theorem processCapture_rel {α : Type} (load : α → Int16) (store : Int16 → α) {m m' : Apm F V} (h : NsAgree z m m')
    (data : ℕ → α) (frames channels : ℤ) :
    Option.Rel (fun p q => p.1 = q.1 ∧ NsAgree z p.2 q.2) (m.processCapture load store data frames channels)
      (m'.processCapture load store data frames channels) := by
  rw [Apm.processCapture_eq, Apm.processCapture_eq]
  refine rel_bind (rel_eq_iff.mpr h.captureBuffer) ?_
  rintro b _ rfl
  refine rel_bind (rel_eq_iff.mpr rfl) ?_
  rintro b _ rfl
  refine rel_bind (rel_ite (R := Eq) h.hasBands_iff (fun _ => rel_eq_iff.mpr rfl) fun _ => rel_eq_iff.mpr rfl) ?_
  rintro b _ rfl
  have hloop : Option.Rel (NsTurnAgree z)
      (forLoopM 0 m.channels.toNat captureChannel ⟨⟨m.toApmNs, b, 0, 0⟩, m.nsHandles⟩)
      (forLoopM 0 m'.channels.toNat captureChannel ⟨⟨m'.toApmNs, b, 0, 0⟩, m'.nsHandles⟩) := by
    have hchannels : m.channels = z.channels := congrArg Settings.channels h.settings
    have hchannels' : m'.channels = z.channels := congrArg Settings.channels h.settings'
    rw [hchannels, hchannels']
    exact forLoopM_optionRel ⟨⟨h.toAgree, rfl, rfl, rfl⟩, h.nsHandles⟩ fun ch hch t t' ht =>
      captureChannel_rel ht hch
  refine rel_bind hloop fun t t' ht => ?_
  rw [ht.buffer]
  refine rel_bind (rel_ite (R := Eq) h.hasBands_iff (fun _ => rel_eq_iff.mpr rfl) fun _ => rel_eq_iff.mpr rfl) ?_
  rintro b _ rfl
  refine rel_bind (rel_eq_iff.mpr rfl) ?_
  rintro r _ rfl
  exact Option.Rel.some ⟨rfl, { ht.apm with captureBuffer := rfl, nsHandles := ht.nsHandles }⟩

end Capture

/-! ## `processUseRnnoise` -/

/-- The splitting filter, made for `width f` channels, reads these channels. -/
structure Vendor.Reads (V : Vendor) (width : V.Filter → ℕ) : Prop where
  newFilter : ∀ n, width (V.newFilter n) = n
  analysis_width : ∀ f k x, width (V.analysis f k x).1 = width f
  synthesis_width : ∀ f k y, width (V.synthesis f k y).1 = width f
  analysis : ∀ f k x x', (∀ ch < width f, ∀ j < kSamplesPer16kHzChannel * k, x ch j = x' ch j) →
    V.analysis f k x = V.analysis f k x'

section Bands

variable {V : Vendor} {b b' : AudioBuffer F V}

/-- The bands as integers. -/
def AudioBuffer.bandInts (b : AudioBuffer F V) (k : ℕ) : Option (ℕ → ℕ → Int16) :=
  b.splitChannels[k]?.map IFChannelBuffer.ints

theorem bandInts_of_split {r : ℕ → ℕ → ℕ → Int16}
    (h : b'.splitChannels = b.splitChannels.mapIdx fun k s => { s.ibuf with ibufData := r k }) :
    b'.bandInts = fun k => if k < b.splitChannels.length then some (r k) else none := by
  funext k
  rw [AudioBuffer.bandInts, h, List.getElem?_mapIdx]
  by_cases hk : k < b.splitChannels.length
  · rw [if_pos hk, List.getElem?_eq_getElem hk]
    exact congrArg some (IFChannelBuffer.ints_ibuf_with (r k))
  · rw [if_neg hk, List.getElem?_eq_none (not_lt.mp hk)]
    rfl

/-- The bands of channel `ch` once they are open. -/
theorem bands_open (hne : b.splitChannels ≠ []) (ch : ℕ) :
    (b.updateBands fun _ s => s.ibuf).bands ch = fun k => (b.bandInts k).map fun x => x ch := by
  funext k
  unfold AudioBuffer.bands AudioBuffer.updateBands AudioBuffer.bandInts
  simp only [if_neg hne, List.mapIdx_eq_nil_iff, List.getElem?_mapIdx]
  cases b.splitChannels[k]? <;> rfl

theorem updateBands_open (hne : b.splitChannels ≠ []) (f : ℕ → IFChannelBuffer F → IFChannelBuffer F) :
    (b.updateBands fun _ s => s.ibuf).updateBands f =
      { b with splitChannels := b.splitChannels.mapIdx fun k s => f k s.ibuf } := by
  unfold AudioBuffer.updateBands
  simp only [if_neg hne, List.mapIdx_eq_nil_iff, List.mapIdx_mapIdx]
  rfl

/-- The bands after the gain control wrote channel `ch`. -/
theorem bandInts_write (ch : ℕ) (out : ℕ → ℕ → Int16) :
    AudioBuffer.bandInts { b with splitChannels := b.splitChannels.mapIdx fun k s => s.ibuf.write ch (out k) } =
      fun k => (b.bandInts k).map fun x => Function.update x ch (out k) := by
  funext k
  unfold AudioBuffer.bandInts
  rw [List.getElem?_mapIdx]
  cases b.splitChannels[k]? with
  | none => rfl
  | some s => exact congrArg some (IFChannelBuffer.ints_ibuf_with (Function.update s.ints ch (out k)))

theorem splitData_eq (b : AudioBuffer F V) :
    AudioBuffer.splitData b.splitChannels = fun k ch j => (b.bandInts k).elim 0 fun x => x ch j := by
  funext k ch j
  unfold AudioBuffer.splitData AudioBuffer.bandInts
  cases b.splitChannels[k]? <;> rfl

end Bands

section Rnnoise

variable {V : Vendor} {width : V.Filter → ℕ} {z : Settings}

/-- Two capture buffers with rows for a frame; with gain control their filters and bands are those of a new one. -/
structure ShapeAgree (width : V.Filter → ℕ) (z : Settings) (b b' : AudioBuffer F V) : Prop where
  rows : b.HasRows z.channels.toNat rnnFrameSize
  rows' : b'.HasRows z.channels.toNat rnnFrameSize
  filter : z.doAgc → Option.Rel (fun f f' => 0 < z.channels → f = f' ∧ width f ≤ z.channels.toNat)
    b.splittingFilter b'.splittingFilter
  splitChannels : z.doAgc → 0 < z.channels → b.splitChannels.length = 3
  splitChannels' : z.doAgc → 0 < z.channels → b'.splitChannels.length = 3
  samplesPerSplitChannel : z.doAgc → 0 < z.channels → b.samplesPerSplitChannel = b'.samplesPerSplitChannel
  numBands : z.doAgc → 0 < z.channels → b.numBands = b'.numBands

/-- The rows have the same frame. -/
def SameFrame (z : Settings) (x x' : ℕ → ℕ → Int16) : Prop :=
  ∀ ch < z.channels.toNat, ∀ j < rnnFrameSize, x ch j = x' ch j

/-- The full bands agree on a frame. -/
structure FullAgree (width : V.Filter → ℕ) (z : Settings) (b b' : AudioBuffer F V) : Prop
    extends ShapeAgree width z b b' where
  full : SameFrame z b.channels.ints b'.channels.ints

/-- The full bands agree, and with gain control the bands do. -/
structure BandsAgree (width : V.Filter → ℕ) (z : Settings) (b b' : AudioBuffer F V) : Prop
    extends FullAgree width z b b' where
  bands : z.doAgc → 0 < z.channels → b.bandInts = b'.bandInts

variable {b b' : AudioBuffer F V} {ch : ℕ}

theorem ShapeAgree.withRows (h : ShapeAgree width z b b') (x x' : ℕ → ℕ → Int16) :
    ShapeAgree width z (b.withRows x) (b'.withRows x') :=
  { h with rows := h.rows.withRows x, rows' := h.rows'.withRows x' }

theorem ShapeAgree.filled (h : ShapeAgree width z b b') (n : ℕ) (x x' : ℕ → ℕ → Int16) :
    ShapeAgree width z (b.filled n x) (b'.filled n x') := by
  unfold AudioBuffer.filled
  split_ifs
  · exact h
  · exact h.withRows x x'

theorem FullAgree.ofRows (h : ShapeAgree width z b b') {x x' : ℕ → ℕ → Int16} (hx : SameFrame z x x') :
    FullAgree width z (b.withRows x) (b'.withRows x') where
  toShapeAgree := h.withRows x x'
  full := by
    rw [AudioBuffer.ints_withRows, AudioBuffer.ints_withRows]
    exact hx

theorem BandsAgree.withRows (h : BandsAgree width z b b') {x x' : ℕ → ℕ → Int16} (hx : SameFrame z x x') :
    BandsAgree width z (b.withRows x) (b'.withRows x') where
  toFullAgree := .ofRows h.toShapeAgree hx
  bands := h.bands

omit [CFloat F] in
theorem pos_of_lt_toNat {c : ℤ} (h : ch < c.toNat) : 0 < c := by omega

/-- The samples of a call go into both buffers. -/
theorem deinterleave_rel (h : ShapeAgree width z b b') (data : ℕ → Int16) :
    Option.Rel (FullAgree width z)
      (forLoopM 0 z.channels.toNat (deinterleaveChannel data rnnFrameSize z.channels.toNat) b)
      (forLoopM 0 z.channels.toNat (deinterleaveChannel data rnnFrameSize z.channels.toNat) b') := by
  rw [deinterleave_eq data h.rows, deinterleave_eq data h.rows']
  refine Option.Rel.some ⟨h.filled _ _ _, fun ch hch j hj => ?_⟩
  rw [AudioBuffer.ints_filled fun h0 => by rw [h0, deinterleaved_zero],
    AudioBuffer.ints_filled fun h0 => by rw [h0, deinterleaved_zero]]
  exact (if_pos ⟨hch, hj⟩).trans (if_pos ⟨hch, hj⟩).symm

/-- What the filter gives for both buffers. -/
theorem split_rel (hV : V.Reads width) (h : FullAgree width z b b') (hdo : z.doAgc) :
    Option.Rel (BandsAgree width z) b.splitIntoFrequencyBands b'.splitIntoFrequencyBands := by
  unfold AudioBuffer.splitIntoFrequencyBands
  refine rel_bind (h.filter hdo) fun f f' hf => Option.Rel.some ?_
  have hcall : 0 < z.channels → V.analysis f b.splitChannels.length b.channels.ints =
      V.analysis f' b'.splitChannels.length b'.channels.ints := by
    intro hpos
    obtain ⟨rfl, hwidth⟩ := hf hpos
    rw [h.splitChannels hdo hpos, h.splitChannels' hdo hpos]
    exact hV.analysis _ _ _ _ fun ch hch j hj => h.full ch (hch.trans_le hwidth) j hj
  exact
    { rows := fun ch hch => by simpa [IFChannelBuffer.Has] using h.rows ch hch
      rows' := fun ch hch => by simpa [IFChannelBuffer.Has] using h.rows' ch hch
      filter := fun _ => Option.Rel.some fun hpos => ⟨congrArg Prod.fst (hcall hpos), by
        rw [IFChannelBuffer.ibufData_ibufConst, hV.analysis_width]
        exact (hf hpos).2⟩
      splitChannels := fun hdo hpos => by simpa using h.splitChannels hdo hpos
      splitChannels' := fun hdo hpos => by simpa using h.splitChannels' hdo hpos
      samplesPerSplitChannel := h.samplesPerSplitChannel
      numBands := h.numBands
      full := by simpa using h.full
      bands := fun hdo hpos => by
        rw [bandInts_of_split rfl, bandInts_of_split rfl, IFChannelBuffer.ibufData_ibufConst,
          IFChannelBuffer.ibufData_ibufConst, hcall hpos, h.splitChannels hdo hpos, h.splitChannels' hdo hpos] }

/-- The bands are open for the gain control in both buffers. -/
theorem splitBands_rel (h : BandsAgree width z b b') (hch : ch < z.channels.toNat) (hdo : z.doAgc) :
    Option.Rel (OpenAgree (BandsAgree width z) ch) (b.splitBands ch) (b'.splitBands ch) := by
  have hpos : 0 < z.channels := pos_of_lt_toNat hch
  have hne : b.splitChannels ≠ [] := List.ne_nil_of_length_pos (by rw [h.splitChannels hdo hpos]; omega)
  have hne' : b'.splitChannels ≠ [] := List.ne_nil_of_length_pos (by rw [h.splitChannels' hdo hpos]; omega)
  unfold AudioBuffer.splitBands
  rw [if_pos (h.rows ch hch).1, if_pos (h.rows' ch hch).1]
  refine Option.Rel.some ⟨?_, ?_, ?_, fun out => ?_⟩
  · rw [bands_open hne, bands_open hne', h.bands hdo hpos]
  · unfold AudioBuffer.updateBands
    rw [if_neg hne, if_neg hne']
    exact h.numBands hdo hpos
  · unfold AudioBuffer.updateBands
    rw [if_neg hne, if_neg hne']
    exact h.samplesPerSplitChannel hdo hpos
  · rw [updateBands_open hne, updateBands_open hne']
    exact { h with
      splitChannels := fun hdo hpos => List.length_mapIdx.trans (h.splitChannels hdo hpos)
      splitChannels' := fun hdo hpos => List.length_mapIdx.trans (h.splitChannels' hdo hpos)
      bands := fun hdo hpos => by rw [bandInts_write, bandInts_write, h.bands hdo hpos] }

/-- The denoiser reads and writes the same samples of both buffers. -/
theorem rnnoiseChannel_rel {t t' : Turn F V} (h : TurnAgree (BandsAgree width z) z True t t') (rnn : FrameProc F V)
    (hch : ch < z.channels.toNat) :
    Option.Rel (TurnAgree (BandsAgree width z) z True) (rnnoiseChannel rnn ch t) (rnnoiseChannel rnn ch t') := by
  unfold rnnoiseChannel
  rw [AudioBuffer.data_eq h.buffer.rows hch, AudioBuffer.data_eq h.buffer.rows' hch]
  simp only [Option.bind_eq_bind, Option.bind_some]
  refine rel_bind (rel_eq_iff.mpr (h.apm.rnnoiseHandles trivial ch hch)) ?_
  rintro handle _ rfl
  let row (x : ℕ → ℕ → Int16) : ℕ → Int16 :=
    writeRow (fun i => floatToShort ((rnn handle fun i => shortToFloat (x ch i)).2 i)) (x ch)
  have hin (i : Fin rnnFrameSize) : t.buffer.channels.ints ch i = t'.buffer.channels.ints ch i :=
    h.buffer.full ch hch i i.2
  have hrow : SameFrame z (Function.update t.buffer.channels.ints ch (row t.buffer.channels.ints))
      (Function.update t'.buffer.channels.ints ch (row t'.buffer.channels.ints)) := by
    intro i hi j hj
    by_cases hic : i = ch
    · subst hic
      simp only [Function.update_self, row, writeRow, dif_pos hj, hin]
    · rw [Function.update_of_ne hic, Function.update_of_ne hic]
      exact h.buffer.full i hi j hj
  have hhandle : (rnn handle fun i => shortToFloat (t.buffer.channels.ints ch i)).1 =
      (rnn handle fun i => shortToFloat (t'.buffer.channels.ints ch i)).1 := by simp only [hin]
  refine Option.Rel.some { h with apm := ?_, buffer := h.buffer.withRows hrow }
  refine { h.apm with rnnoiseHandles := fun hrnn => ?_ }
  rw [AudioBuffer.ibufData_withRows, AudioBuffer.ibufData_withRows, hhandle]
  exact getElem?_set_congr (h.apm.rnnoiseHandles hrnn) ch _

theorem processChannel_rel {t t' : Turn F V} (h : TurnAgree (BandsAgree width z) z True t t') (rnn : FrameProc F V)
    (hch : ch < z.channels.toNat) :
    Option.Rel (TurnAgree (BandsAgree width z) z True) (processChannel rnn ch t) (processChannel rnn ch t') := by
  rw [processChannel_eq, processChannel_eq]
  exact rel_bind (agcStep_rel h hch fun hdo => splitBands_rel h.buffer hch hdo) fun t t' ht =>
    rnnoiseChannel_rel ht rnn hch

/-- The merge gives both buffers the same full band. -/
theorem merge_rel (hV : V.Reads width) (h : BandsAgree width z b b') (hdo : z.doAgc) :
    Option.Rel (FullAgree width z) b.mergeFrequencyBands b'.mergeFrequencyBands := by
  unfold AudioBuffer.mergeFrequencyBands
  refine rel_bind (h.filter hdo) fun f f' hf => Option.Rel.some ?_
  have hcall : 0 < z.channels → V.synthesis f b.splitChannels.length (AudioBuffer.splitData b.splitChannels) =
      V.synthesis f' b'.splitChannels.length (AudioBuffer.splitData b'.splitChannels) := by
    intro hpos
    rw [(hf hpos).1, splitData_eq, splitData_eq, h.bands hdo hpos, h.splitChannels hdo hpos,
      h.splitChannels' hdo hpos]
  refine FullAgree.mk ?_ fun ch hch j _ => ?_
  · exact
      { rows := fun ch hch => by simpa [IFChannelBuffer.Has] using h.rows ch hch
        rows' := fun ch hch => by simpa [IFChannelBuffer.Has] using h.rows' ch hch
        filter := fun _ => Option.Rel.some fun hpos => ⟨congrArg Prod.fst (hcall hpos), by
          rw [hV.synthesis_width]
          exact (hf hpos).2⟩
        splitChannels := fun hdo hpos => (List.length_map _).trans (h.splitChannels hdo hpos)
        splitChannels' := fun hdo hpos => (List.length_map _).trans (h.splitChannels' hdo hpos)
        samplesPerSplitChannel := h.samplesPerSplitChannel
        numBands := h.numBands }
  · simp only [IFChannelBuffer.ints_ibuf_with, hcall (pos_of_lt_toNat hch)]

/-- The same samples come out of both buffers. -/
theorem interleave_rel (h : FullAgree width z b b') (data : ℕ → Int16) :
    Option.Rel (fun r r' => r.2 = r'.2 ∧ ShapeAgree width z r.1 r'.1)
      (forLoopM 0 z.channels.toNat (interleaveChannelWith id rnnFrameSize z.channels.toNat) (b, data))
      (forLoopM 0 z.channels.toNat (interleaveChannelWith id rnnFrameSize z.channels.toNat) (b', data)) := by
  rw [interleave_eq id data h.rows, interleave_eq id data h.rows']
  exact Option.Rel.some ⟨interleavedRows_congr h.full data, h.toShapeAgree.filled _ _ _⟩

/-- Two modules agree on what a call of `processUseRnnoise` reads. -/
structure RnnAgree (width : V.Filter → ℕ) (z : Settings) (m m' : ApmNs F V) : Prop extends Agree z True m m' where
  captureBuffer : Option.Rel (ShapeAgree width z) m.captureBuffer m'.captureBuffer

/-- **Modules that agree return the same samples**, and agree afterwards. -/
theorem processUseRnnoise_rel (hV : V.Reads width) (rnn : FrameProc F V) {m m' : ApmNs F V} (h : RnnAgree width z m m')
    (hfrequency : z.frequency = 48000) (data : ℕ → Int16) :
    Option.Rel (fun p q => p.1 = q.1 ∧ RnnAgree width z p.2 q.2) (processUseRnnoise rnn m data 480 z.channels)
      (processUseRnnoise rnn m' data 480 z.channels) := by
  have hsplits : ∀ m : ApmNs F V, m.settings = z → (m.Splits ↔ z.doAgc) := by
    rintro m rfl
    exact and_iff_left (Or.inr hfrequency)
  rw [processUseRnnoise_bind, processUseRnnoise_bind]
  refine rel_bind h.captureBuffer fun b b' hb => ?_
  refine rel_bind (deinterleave_rel hb data) fun b b' hb => ?_
  have hsplit : Option.Rel (BandsAgree width z) (if m.Splits then b.splitIntoFrequencyBands else some b)
      (if m'.Splits then b'.splitIntoFrequencyBands else some b') := by
    refine rel_ite ((hsplits m h.settings).trans (hsplits m' h.settings').symm) (fun hs => ?_) fun hs => ?_
    · exact split_rel hV hb ((hsplits m h.settings).mp hs)
    · exact Option.Rel.some { hb with bands := fun hdo => absurd ((hsplits m h.settings).mpr hdo) hs }
  refine rel_bind hsplit fun b b' hb => ?_
  have hloop : Option.Rel (TurnAgree (BandsAgree width z) z True)
      (forLoopM 0 z.channels.toNat (processChannel rnn) ⟨m, b, 0, 0⟩)
      (forLoopM 0 z.channels.toNat (processChannel rnn) ⟨m', b', 0, 0⟩) :=
    forLoopM_optionRel ⟨h.toAgree, hb, rfl, rfl⟩ fun ch hch t t' ht => processChannel_rel ht rnn hch
  refine rel_bind hloop fun t t' ht => ?_
  have hmerge : Option.Rel (FullAgree width z) (if m.Splits then t.buffer.mergeFrequencyBands else some t.buffer)
      (if m'.Splits then t'.buffer.mergeFrequencyBands else some t'.buffer) := by
    refine rel_ite ((hsplits m h.settings).trans (hsplits m' h.settings').symm) (fun hs => ?_) fun hs => ?_
    · exact merge_rel hV ht.buffer ((hsplits m h.settings).mp hs)
    · exact Option.Rel.some ht.buffer.toFullAgree
  refine rel_bind hmerge fun b b' hb => ?_
  refine rel_bind (interleave_rel hb data) fun r r' hr => Option.Rel.some ⟨hr.1, ?_⟩
  exact { ht.apm with captureBuffer := Option.Rel.some hr.2 }

end Rnnoise

/-! ## Modules that start alike -/

/-- The answers of the process calls that match the init call `a`. -/
def Apm.stream (rnn : FrameProc F V.toVendor) (m : Apm F V) (a : InitCall) (frames : List (Frame F)) :
    Option (List (Frame F)) :=
  outputsM (fun m frame => m.process rnn a frame) m frames

/-- Two modules that the process calls matching `a` cannot tell apart. -/
def Alike (width : V.Filter → ℕ) (a : InitCall) (m m' : Apm F V) : Prop :=
  match a with
  | .ns frequency _ _ channels doAgc => NsAgree ⟨frequency, channels, doAgc⟩ m m'
  | .rnnoise frequency frames channels doAgc => frequency = 48000 ∧ frames = 480 ∧
      RnnAgree width ⟨frequency, channels, doAgc⟩ m.toApmNs m'.toApmNs

variable {width : V.Filter → ℕ} {a : InitCall} {m m' : Apm F V}

/-- **One frame.** -/
theorem Alike.process (hV : V.toVendor.Reads width) (rnn : FrameProc F V.toVendor) (h : Alike width a m m')
    (frame : Frame F) :
    Option.Rel (fun p q => p.1 = q.1 ∧ Alike width a p.2 q.2) (m.process rnn a frame) (m'.process rnn a frame) := by
  have hmap : ∀ {α : Type} {S S' : Apm F V → Apm F V → Prop} {o o' : Option (α × Apm F V)} (wrap : α → Frame F),
      Option.Rel (fun p q => p.1 = q.1 ∧ S p.2 q.2) o o' → (∀ m m', S m m' → S' m m') →
      Option.Rel (fun p q => p.1 = q.1 ∧ S' p.2 q.2) (o.map (Prod.map wrap id)) (o'.map (Prod.map wrap id)) := by
    intro α S S' o o' wrap hrel hS
    cases hrel with
    | none => exact Option.Rel.none
    | some hpq => exact Option.Rel.some ⟨congrArg wrap hpq.1, hS _ _ hpq.2⟩
  cases a with
  | ns frequency nsMode frames channels doAgc =>
      cases frame with
      | shorts data => exact hmap Frame.shorts (processCapture_rel id id h data frames channels) fun _ _ h => h
      | floats data =>
          exact hmap Frame.floats (processCapture_rel floatToS16 s16ToFloat h data frames channels) fun _ _ h => h
  | rnnoise frequency frames channels doAgc =>
      obtain ⟨rfl, rfl, h⟩ := h
      cases frame with
      | shorts data =>
          refine hmap Frame.shorts (S := fun m m' : Apm F V => RnnAgree width ⟨48000, channels, doAgc⟩ m.toApmNs
            m'.toApmNs) (rel_bind (processUseRnnoise_rel hV rnn h rfl data) fun p q hpq => Option.Rel.some hpq)
            fun _ _ h => ⟨rfl, rfl, h⟩
      | floats data => exact Option.Rel.none

/-- **A run of frames.** -/
theorem Alike.stream_eq (hV : V.toVendor.Reads width) (rnn : FrameProc F V.toVendor) (h : Alike width a m m')
    (frames : List (Frame F)) : m.stream rnn a frames = m'.stream rnn a frames :=
  outputsM_eq_of_sim (Alike width a) (fun _ _ frame h => h.process hV rnn frame) h frames

/-! ## Clean modules -/

/-- The gain control is made the same on every channel. -/
structure Vendor.FixedAgc (V : Vendor) : Prop where
  createAgc : ∀ frequency i j handle handle', createAgc V frequency i = some handle →
    createAgc V frequency j = some handle' → handle = handle'

/-- The calls that make a handle give the same one on every channel. -/
structure Vendor.FixedCreate (V : Vendor) : Prop extends V.FixedAgc where
  rnnoiseCreate : ∀ i j, V.rnnoiseCreate i = V.rnnoiseCreate j

omit [CFloat F] in
/-- A buffer that is kept has rows for a frame of `n` channels; with gain control its filter is a new one for `n`
channels, and it has the bands of a new one. -/
structure AudioBuffer.LikeNew {V : Vendor} (b : AudioBuffer F V) (n : ℕ) (doAgc : Bool) : Prop where
  rows : b.HasRows n rnnFrameSize
  filter : doAgc → b.splittingFilter.isSome
  newFilter : doAgc → 0 < n → b.splittingFilter = some (V.newFilter n)
  splitChannels : doAgc → 0 < n → b.splitChannels.length = 3
  samplesPerSplitChannel : doAgc → 0 < n → b.samplesPerSplitChannel = kSamplesPer16kHzChannel
  numBands : doAgc → 0 < n → b.numBands = 3

/-- **Nothing stale shadows** what the init call `a` adds: the levels, handles and capture buffer that it keeps, of
the channels it is for, are as those it makes. -/
def Apm.Clean (m : Apm F V) (a : InitCall) : Prop :=
  match a with
  | .ns _ _ _ channels doAgc =>
      doAgc → ∀ ch < channels.toNat, ∀ level, m.captureLevel[ch]? = some level → level = 0
  | .rnnoise frequency _ channels doAgc =>
      (∀ ch < channels.toNat, ∀ handle, m.rnnoiseHandles[ch]? = some handle → handle = V.rnnoiseCreate ch) ∧
      (doAgc → ∀ ch < channels.toNat, ∀ handle, m.agcHandles[ch]? = some handle →
        createAgc V.toVendor frequency ch = some handle) ∧
      (doAgc → ∀ ch < channels.toNat, ∀ level, m.captureLevel[ch]? = some level → level = 0) ∧
      ∀ b, m.captureBuffer = some b → b.LikeNew channels.toNat doAgc

omit [CFloat F] in
/-- A new object is clean. -/
theorem Apm.Constructed.clean (h : m.Constructed) (a : InitCall) : m.Clean a := by
  cases a with
  | ns frequency nsMode frames channels doAgc => simp [Apm.Clean, h.captureLevel]
  | rnnoise frequency frames channels doAgc =>
      simp [Apm.Clean, h.captureLevel, h.rnnoiseHandles, h.agcHandles, h.captureBuffer]

omit [CFloat F] in
/-- Entries equal to `a` with entries equal to `a` behind them. -/
theorem getElem?_append_const {α : Type*} {l l' : List α} {a : α} {n ch : ℕ}
    (hl : ∀ ch < n, ∀ x, l[ch]? = some x → x = a) (hl' : ∀ ch < n, l'[ch]? = some a) (hch : ch < n) :
    (l ++ l')[ch]? = some a := by
  rw [List.getElem?_append]
  split_ifs with hlt
  · have hget := List.getElem?_eq_getElem hlt
    rw [hget, hl ch hch _ hget]
  · exact hl' (ch - l.length) (by omega)

section Start

variable {m₁ m₁' : Apm F V} {calls calls' : Calls} {frequency : ℕ} {nsMode frames channels : ℤ} {doAgc : Bool}

omit [CFloat F] in
theorem settings_addAgcs (m : Apm F V) (frequency n : ℕ) (doAgc : Bool) :
    (m.addAgcs frequency n doAgc).settings = m.settings := by
  cases doAgc <;> rfl

/-- The levels that an init call adds are zero, and it adds one for each channel. -/
theorem captureLevel_append {n ch : ℕ} {levels : List ℤ}
    (hclean : ∀ ch < n, ∀ level, levels[ch]? = some level → level = 0) (hch : ch < n) :
    (levels ++ List.replicate n 0)[ch]? = some 0 :=
  getElem?_append_const hclean (fun ch hch => by rw [List.getElem?_replicate, if_pos hch]) hch

omit [CFloat F] in
/-- Which calls succeed makes no difference to the handles that they make. -/
theorem createNs_congr {i : ℕ} (h : ∃ handle, createNs V calls frequency nsMode i = some handle)
    (h' : ∃ handle, createNs V calls' frequency nsMode i = some handle) :
    createNs V calls frequency nsMode i = createNs V calls' frequency nsMode i := by
  obtain ⟨handle, h⟩ := h
  obtain ⟨handle', h'⟩ := h'
  unfold createNs at h h' ⊢
  split_ifs at h h' with hc hc'
  rw [if_pos hc, if_pos hc']

theorem created_congr {α : Type*} {n : ℕ} {create create' : ℕ → Option α} (h : ∀ i < n, create i = create' i) :
    created n create = created n create' :=
  List.filterMap_congr fun i hi => h i (List.mem_range.mp hi)

theorem alike_ns (hclean : m.Clean (.ns frequency nsMode frames channels doAgc)) (hnew : m₁.Constructed)
    (hinit : m.initNsModule calls frequency nsMode frames channels doAgc = (.ok true, m'))
    (hinit₁ : m₁.initNsModule calls' frequency nsMode frames channels doAgc = (.ok true, m₁')) :
    Alike width (.ns frequency nsMode frames channels doAgc) m' m₁' := by
  obtain ⟨rfl, -, -, hns, -⟩ := initNsModule_ok hinit
  obtain ⟨rfl, -, -, hns₁, -⟩ := initNsModule_ok hinit₁
  refine ⟨⟨settings_addAgcs _ _ _ _, settings_addAgcs _ _ _ _, fun hdo ch hch => ?_, fun hdo ch hch => ?_,
    fun h => h.elim⟩, rfl, ?_⟩
  · subst hdo
    rfl
  · subst hdo
    have hclean₁ := hnew.clean (.ns frequency nsMode frames channels true)
    exact (captureLevel_append (hclean rfl) hch).trans (captureLevel_append (hclean₁ rfl) hch).symm
  · simp only [Apm.afterNs, nsHandles_addAgcs]
    exact created_congr fun i hi => createNs_congr (hns i hi) (hns₁ i hi)

omit [CFloat F] in
/-- The denoisers that an init call adds are new ones, and it adds one for each channel. -/
theorem rnnoiseHandles_append (hfixed : V.toVendor.FixedCreate) {n ch : ℕ} {handles : List V.Rnn}
    (hclean : ∀ ch < n, ∀ handle, handles[ch]? = some handle → handle = V.rnnoiseCreate ch) (hch : ch < n) :
    (handles ++ (List.range n).map V.rnnoiseCreate)[ch]? = some (V.rnnoiseCreate 0) := by
  refine getElem?_append_const (fun ch hch handle h => ?_) (fun ch hch => ?_) hch
  · rw [hclean ch hch handle h]
    exact hfixed.rnnoiseCreate ch 0
  · rw [List.getElem?_map, List.getElem?_range hch]
    exact congrArg some (hfixed.rnnoiseCreate ch 0)

omit [CFloat F] in
/-- The gain controls that an init call adds are new ones, and it adds one for each channel. -/
theorem agcHandles_append (hfixed : V.toVendor.FixedCreate) {n ch : ℕ} {handles : List V.Agc} {handle₀ : V.Agc}
    (hagc : ∀ i < n, ∃ handle, createAgc V.toVendor frequency i = some handle)
    (h₀ : createAgc V.toVendor frequency 0 = some handle₀)
    (hclean : ∀ ch < n, ∀ handle, handles[ch]? = some handle → createAgc V.toVendor frequency ch = some handle)
    (hch : ch < n) : (handles ++ created n (createAgc V.toVendor frequency))[ch]? = some handle₀ := by
  refine getElem?_append_const (fun ch hch handle h => ?_) (fun ch hch => ?_) hch
  · exact hfixed.createAgc frequency ch 0 handle handle₀ (hclean ch hch handle h) h₀
  · obtain ⟨handle, hhandle⟩ := hagc ch hch
    rw [getElem?_created hagc hch, hhandle, hfixed.createAgc frequency ch 0 handle handle₀ hhandle h₀]

theorem likeNew_rnnoiseBuffer {b : AudioBuffer F V.toVendor}
    (hkept : ∀ b, m.captureBuffer = some b → b.LikeNew channels.toNat doAgc)
    (hb : m.rnnoiseBuffer calls 480 channels = .ok b) : b.LikeNew channels.toNat doAgc := by
  unfold Apm.rnnoiseBuffer at hb
  cases hm : m.captureBuffer with
  | some b' =>
      rw [hm] at hb
      obtain rfl := Except.ok.inj hb
      exact hkept _ hm
  | none =>
      rw [hm] at hb
      unfold newAudioBuffer at hb
      split_ifs at hb with hover hthrow
      all_goals cases hb
      exact
        { rows := fun ch hch => ⟨hch, le_rfl⟩
          filter := fun _ => rfl
          newFilter := fun _ _ => rfl
          splitChannels := fun _ _ => rfl
          samplesPerSplitChannel := fun _ _ => rfl
          numBands := fun _ _ => rfl }

omit [CFloat F] in
theorem AudioBuffer.LikeNew.shapeAgree {V : Vendor} {width : V.Filter → ℕ} (hV : V.Reads width)
    {b b' : AudioBuffer F V} (h : b.LikeNew channels.toNat doAgc) (h' : b'.LikeNew channels.toNat doAgc) :
    ShapeAgree width ⟨frequency, channels, doAgc⟩ b b' where
  rows := h.rows
  rows' := h'.rows
  filter hdo := by
    obtain ⟨f, hf⟩ := Option.isSome_iff_exists.mp (h.filter hdo)
    obtain ⟨f', hf'⟩ := Option.isSome_iff_exists.mp (h'.filter hdo)
    rw [hf, hf']
    refine Option.Rel.some fun hpos => ?_
    have hnew : f = V.newFilter channels.toNat :=
      Option.some.inj (hf.symm.trans (h.newFilter hdo (Int.lt_toNat.mpr hpos)))
    have hnew' : f' = V.newFilter channels.toNat :=
      Option.some.inj (hf'.symm.trans (h'.newFilter hdo (Int.lt_toNat.mpr hpos)))
    exact ⟨hnew.trans hnew'.symm, by rw [hnew, hV.newFilter]⟩
  splitChannels hdo hpos := h.splitChannels hdo (Int.lt_toNat.mpr hpos)
  splitChannels' hdo hpos := h'.splitChannels hdo (Int.lt_toNat.mpr hpos)
  samplesPerSplitChannel hdo hpos :=
    (h.samplesPerSplitChannel hdo (Int.lt_toNat.mpr hpos)).trans
      (h'.samplesPerSplitChannel hdo (Int.lt_toNat.mpr hpos)).symm
  numBands hdo hpos :=
    (h.numBands hdo (Int.lt_toNat.mpr hpos)).trans (h'.numBands hdo (Int.lt_toNat.mpr hpos)).symm

theorem alike_rnnoise (hV : V.toVendor.Reads width) (hfixed : V.toVendor.FixedCreate)
    (hclean : m.Clean (.rnnoise frequency frames channels doAgc)) (hnew : m₁.Constructed)
    (hinit : m.initRnnoiseModule calls frequency frames channels doAgc = (.ok true, m'))
    (hinit₁ : m₁.initRnnoiseModule calls' frequency frames channels doAgc = (.ok true, m₁')) :
    Alike width (.rnnoise frequency frames channels doAgc) m' m₁' := by
  obtain ⟨rfl, rfl, b, hb, rfl, hagc⟩ := initRnnoiseModule_ok hinit
  obtain ⟨-, -, b₁, hb₁, rfl, -⟩ := initRnnoiseModule_ok hinit₁
  obtain ⟨hrnn, hagcs, hlevels, hbuffer⟩ := hclean
  obtain ⟨hrnn₁, hagcs₁, hlevels₁, hbuffer₁⟩ := hnew.clean (.rnnoise 48000 480 channels doAgc)
  refine ⟨rfl, rfl, ⟨settings_addAgcs _ _ _ _, settings_addAgcs _ _ _ _, fun hdo ch hch => ?_, fun hdo ch hch => ?_,
    fun _ ch hch => ?_⟩, ?_⟩
  · subst hdo
    obtain ⟨handle₀, h₀⟩ := hagc rfl 0 (Nat.zero_lt_of_lt hch)
    exact (agcHandles_append hfixed (hagc rfl) h₀ (hagcs rfl) hch).trans
      (agcHandles_append hfixed (hagc rfl) h₀ (hagcs₁ rfl) hch).symm
  · subst hdo
    exact (captureLevel_append (hlevels rfl) hch).trans (captureLevel_append (hlevels₁ rfl) hch).symm
  · simp only [Apm.afterRnnoise, rnnoiseHandles_addAgcs]
    exact (rnnoiseHandles_append hfixed hrnn hch).trans (rnnoiseHandles_append hfixed hrnn₁ hch).symm
  · simp only [Apm.afterRnnoise, captureBuffer_addAgcs]
    exact Option.Rel.some ((likeNew_rnnoiseBuffer hbuffer hb).shapeAgree hV (likeNew_rnnoiseBuffer hbuffer₁ hb₁))

end Start

/-! ## After a history of calls -/

omit [CFloat F] in
theorem getElem?_append_of_some {α : Type*} {l l' : List α} {i : ℕ} {x : α} (h : l[i]? = some x) :
    (l ++ l')[i]? = some x := by
  obtain ⟨hlt, -⟩ := List.getElem?_eq_some_iff.mp h
  rw [List.getElem?_append_left hlt, h]

/-- No init call replaces a level: what is there stays in front of what it adds. -/
theorem captureLevel_init {calls : Calls} {ch : ℕ} {level : ℤ} (h : m.init calls a = (.ok true, m'))
    (hlevel : m.captureLevel[ch]? = some level) : m'.captureLevel[ch]? = some level := by
  have hadd : ∀ (m : Apm F V) (frequency n : ℕ) (doAgc : Bool), m.captureLevel[ch]? = some level →
      (m.addAgcs frequency n doAgc).captureLevel[ch]? = some level := by
    intro m frequency n doAgc hm
    cases doAgc with
    | false => exact hm
    | true => exact getElem?_append_of_some hm
  cases a with
  | ns frequency nsMode frames channels doAgc =>
      obtain ⟨rfl, -⟩ := initNsModule_ok h
      exact hadd _ _ _ _ hlevel
  | rnnoise frequency frames channels doAgc =>
      obtain ⟨-, -, b, -, rfl, -⟩ := initRnnoiseModule_ok h
      exact hadd _ _ _ _ hlevel

/-- After the init call `a`, the module answers like any new object that was given `a` alone. -/
def Apm.FreshFor (rnn : FrameProc F V.toVendor) (m : Apm F V) (a : InitCall) : Prop :=
  ∀ (m₁ m₁' : Apm F V) (calls : Calls), m₁.Constructed → m₁.init calls a = (.ok true, m₁') →
    ∀ frames, m.stream rnn a frames = m₁'.stream rnn a frames

theorem call_init {rnn : FrameProc F V.toVendor} {calls : Calls} :
    m.call rnn (.init calls a) = some m' ↔ m.init calls a = (.ok true, m') := by
  simp only [Apm.call]
  generalize m.init calls a = r
  obtain ⟨e, m''⟩ := r
  cases e with
  | error e => simp
  | ok ok => cases ok <;> simp

theorem play_concat {rnn : FrameProc F V.toVendor} {history : List (ApmCall F)} {calls : Calls}
    (h : m.play rnn (history ++ [.init calls a]) = some m') :
    ∃ mid, m.play rnn history = some mid ∧ mid.init calls a = (.ok true, m') := by
  unfold Apm.play at h
  rw [List.foldlM_append] at h
  obtain ⟨mid, hmid, hcall⟩ := Option.bind_eq_some_iff.mp h
  simp only [List.foldlM_cons, List.foldlM_nil, bind_pure] at hcall
  exact ⟨mid, hmid, call_init.mp hcall⟩

/-- **After any history an init call on a clean module gives a fresh one**, for third-party calls that make every
handle in one state, and a splitting filter that reads its channels. -/
theorem freshFor_of_clean (V : NsVendor F) (width : V.Filter → ℕ) (hV : V.toVendor.Reads width)
    (hfixed : V.toVendor.FixedCreate) (rnn : FrameProc F V.toVendor) (m₀ : Apm F V) (history : List (ApmCall F))
    (calls : Calls) (a : InitCall) (m' : Apm F V)
    (hplay : m₀.play rnn (history ++ [.init calls a]) = some m')
    (hclean : ∀ m, m₀.play rnn history = some m → m.Clean a) : m'.FreshFor rnn a := by
  obtain ⟨m, hm, hinit⟩ := play_concat hplay
  intro m₁ m₁' calls₁ hnew hinit₁ frames
  have halike : Alike width a m' m₁' := by
    cases a with
    | ns frequency nsMode inputFrames channels doAgc => exact alike_ns (hclean m hm) hnew hinit hinit₁
    | rnnoise frequency inputFrames channels doAgc =>
        exact alike_rnnoise hV hfixed (hclean m hm) hnew hinit hinit₁
  exact halike.stream_eq hV rnn frames

/-! ## A denoiser with a memory -/

/-- A filter for `n` channels that deals the samples out to the bands. -/
def dealAnalysis (n bands : ℕ) (x : ℕ → ℕ → Int16) : ℕ × (ℕ → ℕ → ℕ → Int16) :=
  (n, fun k ch j => if ch < n ∧ k < bands ∧ j < kSamplesPer16kHzChannel then x ch (bands * j + k) else 0)

/-- The filter that collects the samples again. -/
def dealSynthesis (n bands : ℕ) (y : ℕ → ℕ → ℕ → Int16) : ℕ × (ℕ → ℕ → Int16) :=
  (n, fun ch j => if ch < n then y (j % bands) ch (j / bands) else 0)

theorem dealAnalysis_congr {n bands : ℕ} {x x' : ℕ → ℕ → Int16}
    (h : ∀ ch < n, ∀ j < kSamplesPer16kHzChannel * bands, x ch j = x' ch j) :
    dealAnalysis n bands x = dealAnalysis n bands x' := by
  refine Prod.ext rfl (funext fun k => funext fun ch => funext fun j => ?_)
  refine ite_congr rfl (fun hin => h ch hin.1 _ ?_) fun _ => rfl
  calc bands * j + k < bands * j + bands := by omega
    _ = bands * (j + 1) := rfl
    _ ≤ bands * kSamplesPer16kHzChannel := Nat.mul_le_mul_left bands hin.2.2
    _ = kSamplesPer16kHzChannel * bands := Nat.mul_comm _ _

/-- These filters, and denoisers that remember a frame. -/
noncomputable def delayNs : NsVendor ℝ :=
  { plainNs with
    Filter := ℕ
    Rnn := Fin rnnFrameSize → ℝ
    newFilter := id
    analysis := dealAnalysis
    synthesis := dealSynthesis
    rnnoiseCreate := fun _ _ => 0 }

theorem reads_delayNs : delayNs.toVendor.Reads id where
  newFilter _ := rfl
  analysis_width _ _ _ := rfl
  synthesis_width _ _ _ := rfl
  analysis _ _ _ _ h := dealAnalysis_congr h

theorem fixedCreate_delayNs : delayNs.toVendor.FixedCreate where
  rnnoiseCreate _ _ := rfl
  createAgc _ _ _ _ _ h h' := Option.some.inj (h.symm.trans h')

/-- A new object. -/
noncomputable def delayApm : Apm ℝ delayNs :=
  { agcHandles := [], rnnoiseHandles := [], captureLevel := [], captureBuffer := none, frequency := 0, channels := 0,
    doAgc := false, rnnBuf := fun _ => 0, nsHandles := [], nsMode := 0 }

theorem constructed_delayApm : delayApm.Constructed := ⟨rfl, rfl, rfl, rfl, rfl, rfl⟩

/-- The denoiser that gives back the frame before. -/
def delayProc : FrameProc ℝ delayNs.toVendor := fun handle x => (x, handle)

/-- A module that was set up for two channels with gain control, and has processed a frame, is set up for one. -/
theorem freshFor_of_clean_ns : ∃ m', delayApm.play delayProc [.init .all (.ns 48000 0 480 2 true),
    .process (.ns 48000 0 480 2 true) (.shorts fun _ => 1000), .init .all (.ns 16000 0 160 1 true)] = some m' ∧
    m'.FreshFor delayProc (.ns 16000 0 160 1 true) := by
  refine ⟨_, rfl, freshFor_of_clean delayNs id reads_delayNs fixedCreate_delayNs delayProc delayApm
    [.init .all (.ns 48000 0 480 2 true), .process (.ns 48000 0 480 2 true) (.shorts fun _ => 1000)] .all
    (.ns 16000 0 160 1 true) _ rfl ?_⟩
  rintro _ ⟨⟩ - ch hch level hlevel
  obtain rfl : ch = 0 := Nat.lt_one_iff.mp hch
  exact (Option.some.inj hlevel).symm

theorem process_rnnoise {rnn : FrameProc F V.toVendor} {data out : ℕ → Int16} {frequency : ℕ} {frames channels : ℤ}
    {doAgc : Bool} {apm : ApmNs F V.toVendor}
    (h : processUseRnnoise rnn m.toApmNs data frames channels = some (out, apm)) :
    m.process rnn (.rnnoise frequency frames channels doAgc) (.shorts data) =
      some (.shorts out, { m with toApmNs := apm }) := by
  simp only [Apm.process, Apm.processUseRnnoise, h]
  rfl

/-- What the denoiser remembers of a frame. -/
noncomputable def remembered (data : ℕ → Int16) : delayNs.Rnn := fun i : Fin rnnFrameSize => (shortToFloat (data i) : ℝ)

/-- A frame comes out a frame later. -/
theorem process_delay {m : Apm ℝ delayNs} {b : AudioBuffer ℝ delayNs.toVendor} {handle : delayNs.Rnn}
    (hb : m.captureBuffer = some b) (hdo : m.doAgc = false) (hrows : b.HasRows 1 rnnFrameSize)
    (hhandle : m.rnnoiseHandles[0]? = some handle) (data : ℕ → Int16) :
    ∃ out m' b', m.process delayProc (.rnnoise 48000 480 1 false) (.shorts data) = some (.shorts out, m') ∧
      out 0 = floatToShort ((handle : Fin rnnFrameSize → ℝ) ⟨0, by decide⟩) ∧ m'.captureBuffer = some b' ∧
      m'.doAgc = false ∧ b'.HasRows 1 rnnFrameSize ∧ m'.rnnoiseHandles[0]? = some (remembered data) := by
  have hlen : (1 : ℤ).toNat ≤ m.rnnoiseHandles.length := (List.getElem?_eq_some_iff.mp hhandle).choose
  have hrows₁ : b.HasRows (1 : ℤ).toNat rnnFrameSize := hrows
  obtain ⟨apm, b', hcall, hb', hdo', hrows', -, hhandles'⟩ :=
    processUseRnnoise_noAgc delayProc hb hdo hrows₁ hlen le_rfl data
  refine ⟨_, _, b', process_rnnoise hcall, ?_, hb', hdo', hrows', ?_⟩
  · have hrow : denoisedRows delayProc m.rnnoiseHandles (deinterleaved data rnnFrameSize 1 b.channels.ints) 1 0 =
        (denoiseRow delayProc handle (deinterleaved data rnnFrameSize 1 b.channels.ints 0)).2 := by
      rw [denoisedRows, if_pos Nat.one_pos, hhandle]
    have hframe : 0 < rnnFrameSize := by decide
    refine (interleavedRows_apply Nat.one_pos hframe).trans ?_
    exact congrFun hrow 0
  · have hrow : ∀ i : Fin rnnFrameSize, deinterleaved data rnnFrameSize 1 b.channels.ints 0 i = data i := by
      intro i
      rw [deinterleaved, if_pos ⟨Nat.one_pos, i.2⟩, Nat.zero_add, Nat.one_mul]
    simp only [hhandles', denoisedHandles, List.getElem?_mapIdx, hhandle]
    exact congrArg some (funext fun i => congrArg shortToFloat (hrow i))

/-- The module after `initRnnoiseModule(48000, 480, 1, false)` on one with a buffer. -/
theorem init_delay {m : Apm ℝ delayNs} {b : AudioBuffer ℝ delayNs.toVendor} (hb : m.captureBuffer = some b) :
    m.init .all (.rnnoise 48000 480 1 false) = (.ok true, m.afterRnnoise b 48000 1 false) := by
  simp only [Apm.init, Apm.initRnnoiseModule, Apm.rnnoiseBuffer, hb]
  rfl

/-- The frame before the second init call comes out after it. -/
theorem not_freshFor_mono : delayNs.toVendor.FixedCreate ∧ delayApm.Constructed ∧ ∃ m',
    delayApm.play delayProc [.init .all (.rnnoise 48000 480 1 false),
      .process (.rnnoise 48000 480 1 false) (.shorts fun _ => 1000),
      .init .all (.rnnoise 48000 480 1 false)] = some m' ∧
    ¬ m'.FreshFor delayProc (.rnnoise 48000 480 1 false) := by
  let fresh := delayApm.afterRnnoise (AudioBuffer.create delayNs.toVendor 480 1) 48000 1 false
  have hinit : delayApm.init .all (.rnnoise 48000 480 1 false) = (.ok true, fresh) := rfl
  have hrows : (AudioBuffer.create (F := ℝ) delayNs.toVendor 480 1).HasRows 1 rnnFrameSize :=
    fun ch hch => ⟨hch, le_rfl⟩
  obtain ⟨out₂, m₂, b₂, hcall, -, hb₂, -, hrows₂, hhandle₂⟩ :=
    process_delay (m := fresh) rfl rfl hrows rfl fun _ => 1000
  let m₃ := m₂.afterRnnoise b₂ 48000 1 false
  have hhandle₃ : m₃.rnnoiseHandles[0]? = some (remembered fun _ => 1000) :=
    getElem?_append_of_some hhandle₂
  refine ⟨fixedCreate_delayNs, constructed_delayApm, m₃, ?_, fun hfresh => ?_⟩
  · have h₁ : delayApm.call delayProc (.init .all (.rnnoise 48000 480 1 false)) = some fresh := call_init.mpr hinit
    have h₂ : fresh.call delayProc (.process (.rnnoise 48000 480 1 false) (.shorts fun _ => 1000)) = some m₂ := by
      rw [Apm.call, hcall]
      rfl
    have h₃ : m₂.call delayProc (.init .all (.rnnoise 48000 480 1 false)) = some m₃ := call_init.mpr (init_delay hb₂)
    simp only [Apm.play, List.foldlM_cons, List.foldlM_nil, h₁, h₂, h₃, Option.bind_eq_bind, Option.bind_some,
      Option.pure_def]
  · obtain ⟨out, m₄, -, hcall₃, hout, -⟩ := process_delay (m := m₃) rfl rfl hrows₂ hhandle₃ fun _ => 0
    obtain ⟨out', m₄', -, hcall', hout', -⟩ := process_delay (m := fresh) rfl rfl hrows rfl fun _ => 0
    have hstream := hfresh delayApm fresh .all constructed_delayApm hinit [.shorts fun _ => 0]
    simp only [Apm.stream, outputsM, hcall₃, hcall', Option.bind_some, Option.map_some] at hstream
    have heq : out = out' := Frame.shorts.inj (List.cons.inj (Option.some.inj hstream)).1
    have hold : out 0 = Int16.ofInt 1000 := hout.trans (floatToShort_intCast 1000)
    have hnew : out' 0 = Int16.ofInt 0 := hout'.trans ((congrArg floatToShort Rat.cast_zero.symm).trans
      (floatToShort_intCast 0))
    rw [heq, hnew] at hold
    exact absurd hold (by decide)

end AudioProcess
