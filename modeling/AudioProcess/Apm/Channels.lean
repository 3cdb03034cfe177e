import AudioProcess.Apm.Strip

/-!
# Channels are processed on their own

A module of `n` channels is `n` strips; what it returns on a channel is what the strip returns, whatever `n` is.

* `processCaptureLogged`: a call, with the places of the samples that it writes;
* `IsStrips`: a module between two calls is `n` strips; `deinterleave_strip`, `split_strip`, `merge_strip`: the stages
  of a call; `processCapture_strip`: a call is a call of every strip;
* `Layout.ofFrames`; `isStrips_init`: the strips after `initNsModule`;
* **`channels_independent`**: on every run of frames a channel comes back as from a mono module.
-/

namespace AudioProcess

open CFloat CLoop

variable {F : Type} [CFloat F]

/-! ## The places that a call writes -/

section Logged

variable {α : Type} {V : NsVendor F}

/-- `interleaveChannelWith`, with a log of the places that it writes. -/
def interleaveChannelLogged {V : Vendor} (store : Int16 → α) (samples n i : ℕ)
    (r : AudioBuffer F V × (ℕ → α) × List ℕ) : Option (AudioBuffer F V × (ℕ → α) × List ℕ) := do
  let b ← r.1.data i samples
  return (b, forLoop 0 samples
    (fun j q => (Function.update q.1 (i + n * j) (store (b.channels.ibufData i j)), (i + n * j) :: q.2)) r.2)

/-- `processCaptureStream`, with a log of the places that it writes. -/
def Apm.processCaptureLogged (load : α → Int16) (store : Int16 → α) (m : Apm F V) (data : ℕ → α)
    (samplesPerChannel inputChannels : ℤ) : Option (((ℕ → α) × List ℕ) × Apm F V) := do
  let samples := samplesPerChannel.toNat
  let n := inputChannels.toNat
  let b ← m.captureBuffer
  let b ← forLoopM 0 n (deinterleaveChannel (fun p => load (data p)) samples n) b
  let b ← if m.HasBands then b.splitIntoFrequencyBands else some b
  let t ← forLoopM 0 m.channels.toNat captureChannel ⟨⟨m.toApmNs, b, 0, 0⟩, m.nsHandles⟩
  let b ← if m.HasBands then t.buffer.mergeFrequencyBands else some t.buffer
  let (b, out) ← forLoopM 0 n (interleaveChannelLogged store samples n) (b, data, [])
  return (out, { m with toApmNs := { t.apm with captureBuffer := some b }, nsHandles := t.nsHandles })

/-- The log of the last loop. -/
def interleaveLog (samples n : ℕ) : List ℕ :=
  forLoop 0 n (fun i log => forLoop 0 samples (fun j log => (i + n * j) :: log) log) []

/-- The last loop with its log. -/
theorem interleaveLogged_eq {V : Vendor} (store : Int16 → α) (samples n : ℕ) (b : AudioBuffer F V) (data : ℕ → α) :
    forLoopM 0 n (interleaveChannelLogged store samples n) (b, data, []) =
      (forLoopM 0 n (interleaveChannelWith store samples n) (b, data)).map fun r =>
        (r.1, r.2, interleaveLog samples n) := by
  let log (k : ℕ) : List ℕ := forLoop 0 k (fun i log => forLoop 0 samples (fun j log => (i + n * j) :: log) log) []
  have hloop : ∀ k, forLoopM 0 k (interleaveChannelLogged store samples n) (b, data, []) =
      (forLoopM 0 k (interleaveChannelWith store samples n) (b, data)).map fun r => (r.1, r.2, log k) := by
    intro k
    induction k with
    | zero => rfl
    | succ k ih =>
        rw [forLoopM_succ, forLoopM_succ, ih]
        cases forLoopM 0 k (interleaveChannelWith store samples n) (b, data) with
        | none => rfl
        | some r =>
            have hlog : log (k + 1) = forLoop 0 samples (fun j log => (k + n * j) :: log) (log k) :=
              forLoop_succ (Nat.zero_le k) _ _
            simp only [Option.map_some, Option.bind_some, interleaveChannelLogged, interleaveChannelWith, hlog]
            cases r.1.data k samples with
            | none => rfl
            | some b =>
                have hprod := forLoop_prod 0 samples
                  (fun j (data : ℕ → α) => Function.update data (k + n * j) (store (b.channels.ibufData k j)))
                  (fun j (log : List ℕ) => (k + n * j) :: log) r.2 (log k)
                exact congrArg (fun q => some (b, q)) hprod
  exact hloop n

theorem Apm.processCaptureLogged_bind (load : α → Int16) (store : Int16 → α) (m : Apm F V) (data : ℕ → α)
    (samplesPerChannel inputChannels : ℤ) :
    m.processCaptureLogged load store data samplesPerChannel inputChannels =
      m.captureBuffer.bind fun b =>
      (forLoopM 0 inputChannels.toNat (deinterleaveChannel (fun p => load (data p)) samplesPerChannel.toNat
        inputChannels.toNat) b).bind fun b =>
      (if m.HasBands then b.splitIntoFrequencyBands else some b).bind fun b =>
      (forLoopM 0 m.channels.toNat captureChannel ⟨⟨m.toApmNs, b, 0, 0⟩, m.nsHandles⟩).bind fun t =>
      (if m.HasBands then t.buffer.mergeFrequencyBands else some t.buffer).bind fun b =>
      (forLoopM 0 inputChannels.toNat (interleaveChannelLogged store samplesPerChannel.toNat inputChannels.toNat)
        (b, data, [])).bind fun r =>
      some (r.2, { m with toApmNs := { t.apm with captureBuffer := some r.1 }, nsHandles := t.nsHandles }) := by
  unfold Apm.processCaptureLogged
  split_ifs <;> rfl

/-- **A logged call is the call**, and it logs the last loop. -/
theorem Apm.processCaptureLogged_eq (load : α → Int16) (store : Int16 → α) (m : Apm F V) (data : ℕ → α)
    (samplesPerChannel inputChannels : ℤ) :
    m.processCaptureLogged load store data samplesPerChannel inputChannels =
      (m.processCapture load store data samplesPerChannel inputChannels).map fun r =>
        ((r.1, interleaveLog samplesPerChannel.toNat inputChannels.toNat), r.2) := by
  rw [Apm.processCaptureLogged_bind, Apm.processCapture_eq]
  simp only [interleaveLogged_eq, Option.map_bind, Option.bind_map, Function.comp_def, Option.map_some]

end Logged

/-! ## A module as strips -/

/-- Channel `i` of interleaved samples. -/
def channelOf {α : Type} (n i : ℕ) (data : ℕ → α) (j : ℕ) : α := data (i + n * j)

section Strips

variable {V : NsVendor F} {W : V.toVendor.Channelwise} {L : Layout} {n : ℕ} {z : Settings} {st : ℕ → Strip V W}

omit [CFloat F] in
/-- The filter has the states of the strips. -/
structure FilterAt (L : Layout) (n : ℕ) (filter : Option V.Filter) (st : ℕ → Strip V W) : Prop where
  filtered : L.filtered = true → ∃ f, filter = some f ∧ W.width f = n ∧ ∀ i < n, (st i).filter = some (W.state f i)
  unfiltered : L.filtered = false → ∀ i < n, (st i).filter = none

omit [CFloat F] in
theorem FilterAt.ofFiltered {f : V.Filter} (hL : L.filtered = true) (hwidth : W.width f = n)
    (hstate : ∀ i < n, (st i).filter = some (W.state f i)) : FilterAt L n (some f) st where
  filtered _ := ⟨f, rfl, hwidth, hstate⟩
  unfiltered h := absurd (hL.symm.trans h) (by decide)

omit [CFloat F] in
theorem FilterAt.ofUnfiltered {filter : Option V.Filter} (hL : L.filtered = false)
    (hnone : ∀ i < n, (st i).filter = none) : FilterAt L n filter st where
  filtered h := absurd (hL.symm.trans h) (by decide)
  unfiltered _ := hnone

omit [CFloat F] in
theorem FilterAt.congr {filter : Option V.Filter} {st' : ℕ → Strip V W} (h : FilterAt L n filter st)
    (heq : ∀ i, (st' i).filter = (st i).filter) : FilterAt L n filter st' := by
  refine ⟨fun hL => ?_, fun hL i hi => (heq i).trans (h.unfiltered hL i hi)⟩
  obtain ⟨f, hf, hwidth, hstate⟩ := h.filtered hL
  exact ⟨f, hf, hwidth, fun i hi => (heq i).trans (hstate i hi)⟩

/-- The buffer has the rows and the filter of the strips. -/
structure BufferStrips (L : Layout) (n : ℕ) (b : AudioBuffer F V.toVendor) (st : ℕ → Strip V W) : Prop where
  buffer : BufferAt L n b
  rows : ∀ i < n, b.channels.ints i = (st i).row
  filter : FilterAt L n b.splittingFilter st

/-- A module between two calls is `n` strips. -/
structure IsStrips (L : Layout) (n : ℕ) (z : Settings) (m : Apm F V) (st : ℕ → Strip V W) : Prop where
  captureBuffer : ∃ b, m.captureBuffer = some b ∧ BufferStrips L n b st
  settings : m.settings = z
  channels : z.channels.toNat = n
  hasBands : m.HasBands ↔ L.filtered = true
  gain : ∀ i < n, GainAt m.toApmNs i (st i).gain
  nsHandles : ∀ i < n, m.nsHandles[i]? = some (st i).ns
  blockLen : ∀ i < n, V.blockLen (st i).ns ≤ L.samples

variable {b : AudioBuffer F V.toVendor}

theorem BufferAt.filled (h : BufferAt L n b) (k : ℕ) (rows : ℕ → ℕ → Int16) : BufferAt L n (b.filled k rows) := by
  unfold AudioBuffer.filled
  split_ifs
  · exact h
  · exact { h with rows := h.rows.withRows rows }

theorem AudioBuffer.splittingFilter_filled (k : ℕ) (rows : ℕ → ℕ → Int16) :
    (b.filled k rows).splittingFilter = b.splittingFilter := by
  unfold AudioBuffer.filled
  split_ifs <;> rfl

/-- The samples go into the rows. -/
theorem deinterleave_strip (h : BufferStrips L n b st) (data : ℕ → Int16) :
    ∃ rows, forLoopM 0 n (deinterleaveChannel data L.frames n) b = some (b.filled n rows) ∧
      BufferStrips L n (b.filled n rows) fun i => (st i).read L.frames (channelOf n i data) := by
  refine ⟨_, deinterleave_eq data h.buffer.rows, h.buffer.filled n _, fun i hi => ?_, ?_⟩
  · rw [AudioBuffer.ints_filled fun h0 => absurd hi (by omega)]
    funext j
    unfold deinterleaved
    rw [h.rows i hi]
    exact if_congr (and_iff_right hi) rfl rfl
  · rw [AudioBuffer.splittingFilter_filled]
    exact h.filter.congr fun _ => rfl

omit [CFloat F] in
theorem BufferAt.bandBuffers_filtered (h : BufferAt L n b) (hL : L.filtered = true) :
    b.splitChannels.length = L.bands ∧ b.bandBuffers = b.splitChannels := by
  have hlen := h.splitChannels
  rw [hL, if_pos rfl] at hlen
  exact ⟨hlen, if_neg (List.ne_nil_of_length_pos (hlen.symm ▸ L.pos))⟩

omit [CFloat F] in
theorem BufferAt.bandBuffers_unfiltered (h : BufferAt L n b) (hL : L.filtered = false) :
    b.bandBuffers = [b.channels] := by
  have hlen := h.splitChannels
  rw [hL, if_neg Bool.false_ne_true] at hlen
  exact if_pos (List.eq_nil_of_length_eq_zero hlen)

variable {rows : ℕ → ℕ → Int16} {c : Prop} [Decidable c]

/-- The strips without a filter have the full band as their band. -/
theorem split_unfiltered [ExactHalves F] (h : BufferStrips L n (b.filled n rows) st) (hL : L.filtered = false) :
    StripsAt n 0 (fun i => ((st i).split L.bands).2) (b.filled n rows).bandBuffers := by
  have hget : ∀ (k : ℕ) (s : IFChannelBuffer F), (b.filled n rows).bandBuffers[k]? = some s →
      s = (b.filled n rows).channels := by
    intro k s hs
    rw [h.buffer.bandBuffers_unfiltered hL] at hs
    exact List.mem_singleton.mp (List.mem_of_getElem? hs)
  have hopen : 0 < n → (b.filled n rows).channels = { b.channels.ibuf with ibufData := rows } := by
    intro hn
    rw [AudioBuffer.filled, if_neg (Nat.pos_iff_ne_zero.mp hn)]
    rfl
  have hrow : ∀ i < n, rows i = (st i).row := by
    intro i hi
    rw [← h.rows i hi, AudioBuffer.ints_filled fun h0 => absurd hi (by omega)]
  have hband : ∀ i < n, ∀ k, ((st i).split L.bands).2 k = rows i := by
    intro i hi k
    rw [Strip.split_none (h.filter.unfiltered hL i hi), hrow i hi]
  constructor
  · intro hn k s hs
    rw [hget k s hs, hopen hn]
    exact IFChannelBuffer.coherent_ibuf_with rows
  · intro k s hs i hi
    rw [hget k s hs, hopen (Nat.zero_lt_of_lt hi), IFChannelBuffer.ints_ibuf_with, hband i hi]
  · intro k s hs i hi _
    rw [hget k s hs, hopen (Nat.zero_lt_of_lt hi), IFChannelBuffer.floats_ibuf_with]
    simp only [hband i hi]

/-- The filter splits every strip on its own. -/
theorem split_filtered [ExactHalves F] (h : BufferStrips L n b st) (hL : L.filtered = true) :
    ∃ b', b.splitIntoFrequencyBands = some b' ∧ BufferAt L n b' ∧
      StripsAt n 0 (fun i => ((st i).split L.bands).2) b'.bandBuffers ∧
      FilterAt L n b'.splittingFilter fun i => ((st i).split L.bands).1 := by
  obtain ⟨f, hf, hwidth, hstate⟩ := h.filter.filtered hL
  obtain ⟨hlen, -⟩ := h.buffer.bandBuffers_filtered hL
  let r := V.analysis f L.bands b.channels.ints
  have hsplit : ∀ i < n, (st i).split L.bands =
      ({ st i with filter := some (W.state r.1 i) }, (W.analyse (W.state f i) L.bands (st i).row).2) := by
    intro i hi
    have hnext : W.state r.1 i = (W.analyse (W.state f i) L.bands (st i).row).1 := by
      rw [← h.rows i hi]
      exact W.state_analysis f L.bands _ i (hwidth ▸ hi)
    rw [Strip.split_some (hstate i hi), hnext]
  let b' : AudioBuffer F V.toVendor := { b with
    channels := b.channels.ibufConst
    splitChannels := b.splitChannels.mapIdx fun k s => { s.ibuf with ibufData := r.2 k }
    splittingFilter := some r.1 }
  have hcall : b.splitIntoFrequencyBands = some b' := by
    rw [AudioBuffer.splitIntoFrequencyBands, hf, hlen]
    rfl
  have hb' : BufferAt L n b' :=
    { rows := fun ch hch => by simpa [b', IFChannelBuffer.Has] using h.buffer.rows ch hch
      splitChannels := List.length_mapIdx.trans h.buffer.splitChannels
      numBands := h.buffer.numBands
      samplesPerSplitChannel := h.buffer.samplesPerSplitChannel }
  refine ⟨b', hcall, hb', ?_, .ofFiltered hL ((W.width_analysis f _ _).trans hwidth) fun i hi => ?_⟩
  · rw [(hb'.bandBuffers_filtered hL).2]
    have hget : ∀ (k : ℕ) (s' : IFChannelBuffer F), b'.splitChannels[k]? = some s' →
        ∃ s : IFChannelBuffer F, k < L.bands ∧ s' = { s.ibuf with ibufData := r.2 k } := by
      intro k s' hs'
      rw [List.getElem?_mapIdx] at hs'
      obtain ⟨s, hs, rfl⟩ := Option.map_eq_some_iff.mp hs'
      obtain ⟨hk, -⟩ := List.getElem?_eq_some_iff.mp hs
      exact ⟨s, hlen ▸ hk, rfl⟩
    have hband : ∀ i < n, ∀ k < L.bands, r.2 k i = ((st i).split L.bands).2 k := by
      intro i hi k hk
      rw [hsplit i hi, ← h.rows i hi]
      exact W.analysis f L.bands _ i (hwidth ▸ hi) k hk
    constructor
    · intro _ k s' hs'
      obtain ⟨s, -, rfl⟩ := hget k s' hs'
      exact IFChannelBuffer.coherent_ibuf_with _
    · intro k s' hs' i hi
      obtain ⟨s, hk, rfl⟩ := hget k s' hs'
      rw [IFChannelBuffer.ints_ibuf_with, hband i hi k hk]
    · intro k s' hs' i hi _
      obtain ⟨s, hk, rfl⟩ := hget k s' hs'
      rw [IFChannelBuffer.floats_ibuf_with]
      simp only [hband i hi k hk]
  · rw [hsplit i hi]

/-- **The bands before the loop** over the channels. -/
theorem split_strip [ExactHalves F] (h : BufferStrips L n (b.filled n rows) st) (hc : c ↔ L.filtered = true) :
    ∃ b', (if c then (b.filled n rows).splitIntoFrequencyBands else some (b.filled n rows)) = some b' ∧
      BufferAt L n b' ∧ StripsAt n 0 (fun i => ((st i).split L.bands).2) b'.bandBuffers ∧
      FilterAt L n b'.splittingFilter fun i => ((st i).split L.bands).1 := by
  cases hL : L.filtered with
  | true =>
      obtain ⟨b', hb', hrest⟩ := split_filtered h hL
      exact ⟨b', (if_pos (hc.mpr hL)).trans hb', hrest⟩
  | false =>
      have hnot : ¬ c := fun h => Bool.false_ne_true (hL.symm.trans (hc.mp h))
      refine ⟨_, if_neg hnot, h.buffer, split_unfiltered h hL, .ofUnfiltered hL fun i hi => ?_⟩
      rw [Strip.split_none (h.filter.unfiltered hL i hi)]
      exact h.filter.unfiltered hL i hi

variable {cur : ℕ → Strip V W × (ℕ → ℕ → Int16)}

/-- The filter merges every strip on its own. -/
theorem merge_filtered {k : ℕ} (hb : BufferAt L n b) (hbands : StripsAt n k (fun i => (cur i).2) b.bandBuffers)
    (hfilter : FilterAt L n b.splittingFilter fun i => (cur i).1) (hL : L.filtered = true) :
    ∃ b', b.mergeFrequencyBands = some b' ∧ BufferStrips L n b' fun i => (cur i).1.merge L.bands (cur i).2 := by
  obtain ⟨f, hf, hwidth, hstate⟩ := hfilter.filtered hL
  obtain ⟨hlen, hbuffers⟩ := hb.bandBuffers_filtered hL
  let r := V.synthesis f L.bands (AudioBuffer.splitData b.splitChannels)
  have hmerge : ∀ i < n, (cur i).1.merge L.bands (cur i).2 =
      { (cur i).1 with filter := some (W.state r.1 i), row := r.2 i } := by
    intro i hi
    have hrows : (fun k => b.splitChannels[k]?.map fun s => s.ints i) = bandsOf L.bands (cur i).2 :=
      bandsOf_eq hlen fun k s hs => hbands.ints k s (hbuffers ▸ hs) i hi
    have hdata : (fun k => AudioBuffer.splitData b.splitChannels k i) =
        fun k => (bandsOf L.bands (cur i).2 k).getD fun _ => 0 := by
      funext k
      rw [← congrFun hrows k]
      unfold AudioBuffer.splitData
      cases b.splitChannels[k]? <;> rfl
    have hnext : W.state r.1 i = _ := W.state_synthesis f L.bands _ i (hwidth ▸ hi)
    have hrow : r.2 i = _ := W.synthesis f L.bands _ i (hwidth ▸ hi)
    rw [Strip.merge_some (hstate i hi), hnext, hrow, hdata]
  have hcall : b.mergeFrequencyBands = some { b with
      channels := { b.channels.ibuf with ibufData := r.2 }
      splitChannels := b.splitChannels.map fun s => s.ibufConst
      splittingFilter := some r.1 } := by
    rw [AudioBuffer.mergeFrequencyBands, hf, hlen]
    rfl
  refine ⟨_, hcall, ⟨?_, ?_, hb.numBands, hb.samplesPerSplitChannel⟩, ?_,
    .ofFiltered hL ((W.width_synthesis f _ _).trans hwidth) fun i hi => ?_⟩
  · exact fun ch hch => by simpa [IFChannelBuffer.Has] using hb.rows ch hch
  · exact (List.length_map _).trans hb.splitChannels
  · intro i hi
    rw [hmerge i hi]
    simp only [IFChannelBuffer.ints_ibuf_with]
  · rw [hmerge i hi]

/-- **The rows after the loop** over the channels. -/
theorem merge_strip {k : ℕ} (hb : BufferAt L n b) (hbands : StripsAt n k (fun i => (cur i).2) b.bandBuffers)
    (hfilter : FilterAt L n b.splittingFilter fun i => (cur i).1) (hc : c ↔ L.filtered = true) :
    ∃ b', (if c then b.mergeFrequencyBands else some b) = some b' ∧
      BufferStrips L n b' fun i => (cur i).1.merge L.bands (cur i).2 := by
  cases hL : L.filtered with
  | true =>
      obtain ⟨b', hb', hstrips⟩ := merge_filtered hb hbands hfilter hL
      exact ⟨b', (if_pos (hc.mpr hL)).trans hb', hstrips⟩
  | false =>
      have hnot : ¬ c := fun h => Bool.false_ne_true (hL.symm.trans (hc.mp h))
      have hband : b.bandBuffers[0]? = some b.channels := by
        rw [hb.bandBuffers_unfiltered hL]
        rfl
      have hmerge : ∀ i < n, (cur i).1.merge L.bands (cur i).2 = { (cur i).1 with row := (cur i).2 0 } :=
        fun i hi => Strip.merge_none (hfilter.unfiltered hL i hi)
      refine ⟨b, if_neg hnot, hb, fun i hi => ?_, .ofUnfiltered hL fun i hi => ?_⟩
      · rw [hmerge i hi]
        exact hbands.ints 0 _ hband i hi
      · rw [hmerge i hi]
        exact hfilter.unfiltered hL i hi

/-! ## Calls -/

omit [CFloat F] in
/-- A channel of interleaved rows. -/
theorem channelOf_interleaved {α : Type} {samples i : ℕ} (hi : i < n) (y : ℕ → ℕ → α) (data : ℕ → α) :
    channelOf n i (interleavedRows samples n y data) =
      fun j => if j < samples then y i j else channelOf n i data j := by
  funext j
  unfold channelOf
  split_ifs with hj
  · exact interleavedRows_apply hi hj
  · have hle : n * samples ≤ i + n * j := (Nat.mul_le_mul_left n (not_lt.mp hj)).trans (Nat.le_add_left _ i)
    exact if_neg (not_lt.mpr hle)

/-- A call on one channel: the samples, and the strip. -/
def Strip.call (L : Layout) (s : Strip V W) (data : ℕ → Int16) : (ℕ → Int16) × Strip V W :=
  let s' := s.frame L data
  (fun j => if j < L.frames then s'.row j else data j, s')

variable {m : Apm F V} {frames : ℤ} {filter : Option V.Filter} {t : NsTurn F V}

/-- The loop over the channels starts. -/
theorem IsStrips.turnAt (h : IsStrips L n z m st) (hb : BufferAt L n b)
    (hbands : StripsAt n 0 (fun i => (cur i).2) b.bandBuffers) (hgain : ∀ i, (cur i).1.gain = (st i).gain)
    (hns : ∀ i, (cur i).1.ns = (st i).ns) :
    TurnAt L n z b.splittingFilter 0 cur ⟨⟨m.toApmNs, b, 0, 0⟩, m.nsHandles⟩ where
  buffer := hb
  filter := rfl
  settings := h.settings
  bands := hbands
  gain i hi := by
    rw [hgain i]
    exact h.gain i hi
  nsHandles i hi := by
    rw [hns i]
    exact h.nsHandles i hi
  blockLen i hi := by
    rw [hns i]
    exact h.blockLen i hi

/-- The call ends. -/
theorem IsStrips.ofTurn (h : IsStrips L n z m st) {ch : ℕ} (ht : TurnAt L n z filter ch cur t)
    (hb : BufferStrips L n b fun i => (cur i).1.merge L.bands (cur i).2) :
    IsStrips L n z { m with toApmNs := { t.apm with captureBuffer := some b }, nsHandles := t.nsHandles }
      fun i => (cur i).1.merge L.bands (cur i).2 where
  captureBuffer := ⟨b, rfl, hb⟩
  settings := ht.settings
  channels := h.channels
  hasBands := by
    have hfrequency : t.apm.frequency = m.frequency :=
      congrArg Settings.frequency (ht.settings.trans h.settings.symm)
    rw [← h.hasBands, Apm.HasBands, Apm.HasBands, ← hfrequency]
  gain i hi := by
    have hgain := ht.gain i hi
    rw [Strip.gain_merge]
    exact ⟨hgain.isSome, hgain.agcHandles, hgain.captureLevel⟩
  nsHandles i hi := by
    rw [Strip.ns_merge]
    exact ht.nsHandles i hi
  blockLen i hi := by
    rw [Strip.ns_merge]
    exact ht.blockLen i hi

theorem BufferStrips.filled (h : BufferStrips L n b st) (k : ℕ) : BufferStrips L n (b.filled k b.channels.ints) st where
  buffer := h.buffer.filled k _
  rows i hi := (congrFun (AudioBuffer.ints_filled fun _ => rfl) i).trans (h.rows i hi)
  filter := by
    rw [AudioBuffer.splittingFilter_filled]
    exact h.filter

variable [ExactHalves F]

/-- **A call is a call of every strip.** -/
theorem processCapture_strip (hV : V.TenMs) (hagc : V.toVendor.AgcOwn) (h : IsStrips L n z m st)
    (hframes : frames.toNat = L.frames) (data : ℕ → Int16) :
    ∃ out m', m.processCapture id id data frames z.channels = some (out, m') ∧
      (∀ i < n, channelOf n i out = (Strip.call L (st i) (channelOf n i data)).1) ∧
      IsStrips L n z m' fun i => (Strip.call L (st i) (channelOf n i data)).2 := by
  let cur (i : ℕ) : Strip V W × (ℕ → ℕ → Int16) := ((st i).read L.frames (channelOf n i data)).split L.bands
  obtain ⟨b, hb, hstrips⟩ := h.captureBuffer
  obtain ⟨rows, hread, hstrips₁⟩ := deinterleave_strip hstrips data
  obtain ⟨b₂, hsplit, hbuffer₂, hbands₂, hfilter₂⟩ := split_strip hstrips₁ h.hasBands
  have hstart : TurnAt L n z b₂.splittingFilter 0 cur ⟨⟨m.toApmNs, b₂, 0, 0⟩, m.nsHandles⟩ :=
    h.turnAt hbuffer₂ hbands₂ (fun i => Strip.gain_split _ _) fun i => Strip.ns_split _ _
  obtain ⟨t, hloop, hturn⟩ := captureLoop_strip hV hagc hstart
  have hfilter : FilterAt L n t.buffer.splittingFilter fun i => (Strip.work L (cur i)).1 := by
    rw [hturn.filter]
    exact hfilter₂.congr fun i => Strip.filter_work L (cur i)
  obtain ⟨b₃, hmerge, hstrips₃⟩ := merge_strip hturn.buffer hturn.bands hfilter h.hasBands
  have hwrite := interleave_eq (id : Int16 → Int16) data hstrips₃.buffer.rows
  have hchannels : m.channels.toNat = n := (congrArg (fun z => z.channels.toNat) h.settings).trans h.channels
  let m' : Apm F V := { m with
    toApmNs := { t.apm with captureBuffer := some (b₃.filled n b₃.channels.ints) }
    nsHandles := t.nsHandles }
  have hcall : m.processCapture id id data frames z.channels =
      some (interleavedRows L.frames n (fun ch j => b₃.channels.ints ch j) data, m') := by
    simp only [Apm.processCapture_eq, hb, Option.bind_some, h.channels, hframes, id_eq, hread, hsplit, hchannels, hloop,
      hmerge, hwrite]
    rfl
  refine ⟨_, m', hcall, fun i hi => ?_, h.ofTurn hturn (hstrips₃.filled n)⟩
  rw [channelOf_interleaved hi]
  funext j
  rw [hstrips₃.rows i hi]
  rfl

/-! ## Runs -/

omit [ExactHalves F] in
/-- The samples that a run of `processCaptureStream` returns. -/
def Apm.captureStream (m : Apm F V) (frames channels : ℤ) (datas : List (ℕ → Int16)) : Option (List (ℕ → Int16)) :=
  outputsM (fun m data => m.processCaptureStream data frames channels) m datas

omit [ExactHalves F] in
/-- The same, with the places that each call writes. -/
def Apm.captureStreamLogged (m : Apm F V) (frames channels : ℤ) (datas : List (ℕ → Int16)) :
    Option (List ((ℕ → Int16) × List ℕ)) :=
  outputsM (fun m data => m.processCaptureLogged id id data frames channels) m datas

omit [ExactHalves F] in
theorem captureStreamLogged_eq (m : Apm F V) (frames channels : ℤ) (datas : List (ℕ → Int16)) :
    m.captureStreamLogged frames channels datas = (m.captureStream frames channels datas).map fun outs =>
      outs.map fun out => (out, interleaveLog frames.toNat channels.toNat) := by
  unfold Apm.captureStreamLogged Apm.captureStream
  simp only [Apm.processCaptureLogged_eq]
  exact outputsM_map _ (fun out => (out, interleaveLog frames.toNat channels.toNat)) m datas

/-- **A run is a run of every strip.** -/
theorem captureStream_strip (hV : V.TenMs) (hagc : V.toVendor.AgcOwn) (h : IsStrips L n z m st)
    (hframes : frames.toNat = L.frames) (datas : List (ℕ → Int16)) :
    ∃ outs, m.captureStream frames z.channels datas = some outs ∧ ∀ i < n,
      outs.map (channelOf n i) = Runs.outputs (Strip.call L) (st i) (datas.map (channelOf n i)) :=
  outputsM_components (IsStrips L n z) (channelOf n) (channelOf n)
    (fun _ _ data h => processCapture_strip hV hagc h hframes data) h datas

/-! ## A module without channels -/

omit [ExactHalves F] in
/-- A module without channels between two calls. -/
structure IsIdle (m : Apm F V) : Prop where
  channels : m.channels.toNat = 0
  captureBuffer : ∃ b, m.captureBuffer = some b ∧ (m.HasBands → b.sizes.filter = true)

omit [ExactHalves F] in
theorem processCapture_idle (h : IsIdle m) (frames : ℤ) {channels : ℤ} (hchannels : channels.toNat = 0)
    (data : ℕ → Int16) :
    ∃ m', m.processCapture id id data frames channels = some (data, m') ∧ IsIdle m' := by
  obtain ⟨b, hb, hfilter⟩ := h.captureBuffer
  obtain ⟨b₁, hb₁, hsizes₁⟩ :=
    (filterCall_defined (fun _ => AudioBuffer.split_defined) rfl m.HasBands).exists_eq_some hfilter
  obtain ⟨b₂, hb₂, hsizes₂⟩ :=
    (filterCall_defined (fun _ => AudioBuffer.merge_defined) hsizes₁ m.HasBands).exists_eq_some hfilter
  have hnone : ∀ {σ : Type} (body : ℕ → σ → Option σ) (s : σ), forLoopM 0 0 body s = some s := fun _ _ => rfl
  refine ⟨{ m with captureBuffer := some b₂ }, ?_, h.channels, b₂, rfl, hsizes₂ ▸ hfilter⟩
  simp only [Apm.processCapture_eq, hb, hchannels, h.channels, hnone, Option.bind_some, hb₁, hb₂]

omit [ExactHalves F] in
theorem captureStream_idle (h : IsIdle m) {channels : ℤ} (hchannels : channels.toNat = 0)
    (datas : List (ℕ → Int16)) : m.captureStream frames channels datas = some datas := by
  unfold Apm.captureStream
  induction datas generalizing m with
  | nil => rfl
  | cons data datas ih =>
      obtain ⟨m', hcall, hnext⟩ := processCapture_idle h frames hchannels data
      rw [outputsM, Apm.processCaptureStream, hcall, Option.bind_some, ih hnext]
      rfl

end Strips

/-! ## Modules that start -/

omit [CFloat F] in
/-- The calls that make the gain control and the noise suppression give the same handle on every channel. -/
structure NsVendor.FixedCreate (V : NsVendor F) : Prop extends V.toVendor.FixedAgc where
  createNs : ∀ calls calls' frequency nsMode i j handle handle', createNs V calls frequency nsMode i = some handle →
    createNs V calls' frequency nsMode j = some handle' → handle = handle'

/-- A rate of `WebRtcNs_Init`, and `10` ms at this rate. -/
def Supported (frequency : ℕ) (frames : ℤ) : Prop :=
  (frequency = 8000 ∨ frequency = 16000 ∨ frequency = 32000 ∨ frequency = 48000) ∧ frames * 100 = frequency

/-- The sizes of a frame of `frames` samples. -/
def Layout.ofFrames (frames : ℕ) : Layout where
  frames := frames
  bands := if Splittable frames then frames / kSamplesPer16kHzChannel else 1
  samples := if Splittable frames then kSamplesPer16kHzChannel else frames
  filtered := decide (Splittable frames)
  pos := by
    split_ifs with h
    · rcases h with rfl | rfl <;> decide
    · exact Nat.one_pos
  one h := if_neg (of_decide_eq_false h)

section Start

variable {V : NsVendor F} {W : V.toVendor.Channelwise} {n frequency : ℕ} {nsMode frames channels : ℤ} {doAgc : Bool}

theorem bufferAt_create (V : Vendor) (frames n : ℕ) :
    BufferAt (Layout.ofFrames frames) n (AudioBuffer.create (F := F) V frames n) := by
  unfold AudioBuffer.create
  by_cases h : Splittable frames
  · rw [if_pos (show _ ∨ _ from h)]
    constructor
    · exact fun ch hch => ⟨hch, le_rfl⟩
    · have hbands : (if (Layout.ofFrames frames).filtered then (Layout.ofFrames frames).bands else 0) =
          frames / kSamplesPer16kHzChannel := (if_pos (decide_eq_true h)).trans (if_pos h)
      rw [hbands]
      rcases h with rfl | rfl
      · simp [kSamplesPer32kHzChannel, kSamplesPer48kHzChannel, kSamplesPer16kHzChannel]
      · simp [kSamplesPer48kHzChannel, kSamplesPer16kHzChannel]
    · exact (if_pos h).symm
    · exact (if_pos h).symm
  · rw [if_neg (show ¬ (_ ∨ _) from h)]
    constructor
    · exact fun ch hch => ⟨hch, le_rfl⟩
    · exact (if_neg fun hL => h (of_decide_eq_true hL)).symm
    · exact (if_neg h).symm
    · exact (if_neg h).symm

theorem channels_create (V : Vendor) (frames n : ℕ) :
    (AudioBuffer.create (F := F) V frames n).channels = IFChannelBuffer.create frames n := by
  unfold AudioBuffer.create
  split_ifs <;> rfl

theorem splittingFilter_create (V : Vendor) (frames n : ℕ) :
    (AudioBuffer.create (F := F) V frames n).splittingFilter =
      if Splittable frames then some (V.newFilter n) else none := by
  unfold AudioBuffer.create
  by_cases h : Splittable frames
  · rw [if_pos (show _ ∨ _ from h), if_pos h]
  · rw [if_neg (show ¬ (_ ∨ _) from h), if_neg h]

omit [CFloat F] in
/-- A strip that an init call starts. -/
structure Strip.Start (frequency : ℕ) (nsMode : ℤ) (frames : ℕ) (doAgc : Bool) (s : Strip V W) : Prop where
  isSome : s.gain.isSome = doAgc
  agc : ∀ g, s.gain = some g → ∃ i, createAgc V.toVendor frequency i = some g.1
  level : ∀ g, s.gain = some g → g.2 = 0
  ns : ∃ calls i, createNs V calls frequency nsMode i = some s.ns
  filter : s.filter = if Splittable frames then some W.new else none
  row : s.row = fun _ => 0

/-- The buffer of an init call, as strips. -/
theorem bufferStrips_create {frames : ℕ} {s : Strip V W} (hs : s.Start frequency nsMode frames doAgc) :
    BufferStrips (Layout.ofFrames frames) n (AudioBuffer.create (F := F) V.toVendor frames n) fun _ => s where
  buffer := bufferAt_create V.toVendor frames n
  rows i _ := by
    rw [channels_create, hs.row]
    exact congrFun (IFChannelBuffer.ints_of_ivalid rfl) i
  filter := by
    rw [splittingFilter_create]
    constructor
    · intro hL
      have h : Splittable frames := of_decide_eq_true hL
      refine ⟨V.newFilter n, if_pos h, W.width_newFilter n, fun i hi => ?_⟩
      rw [hs.filter, if_pos h, W.state_newFilter n i hi]
    · intro hL i _
      exact hs.filter.trans (if_neg (of_decide_eq_false hL))

variable {calls : Calls} {m₀ m : Apm F V}

/-- An init call for one channel or more starts a strip. -/
theorem exists_start (hinit : m₀.initNsModule calls frequency nsMode frames channels doAgc = (.ok true, m))
    (hpos : 0 < channels.toNat) : ∃ s : Strip V W, s.Start frequency nsMode frames.toNat doAgc := by
  obtain ⟨-, -, -, hns, hagc⟩ := initNsModule_ok hinit
  obtain ⟨handle, hhandle⟩ := hns 0 hpos
  let filter : Option W.State := if Splittable frames.toNat then some W.new else none
  cases doAgc with
  | false =>
      refine ⟨⟨none, handle, filter, fun _ => 0⟩, rfl, ?_, ?_, ⟨calls, 0, hhandle⟩, rfl, rfl⟩
      · rintro _ ⟨⟩
      · rintro _ ⟨⟩
  | true =>
      obtain ⟨agc, hcreate⟩ := hagc rfl 0 hpos
      refine ⟨⟨some (agc, 0), handle, filter, fun _ => 0⟩, rfl, ?_, ?_, ⟨calls, 0, hhandle⟩, rfl, rfl⟩
      · rintro _ ⟨⟩
        exact ⟨0, hcreate⟩
      · rintro _ ⟨⟩
        rfl

/-- The gain control of an init call is that of the strip. -/
theorem gainAt_init (hfixed : V.FixedCreate) (hnew : m₀.Constructed)
    (hagc : doAgc → ∀ i < channels.toNat, ∃ handle, createAgc V.toVendor frequency i = some handle) {s : Strip V W}
    (hs : s.Start frequency nsMode frames.toNat doAgc) {i : ℕ} (hi : i < channels.toNat) :
    GainAt (m₀.afterNs calls frequency nsMode frames channels doAgc).toApmNs i s.gain := by
  cases doAgc with
  | false =>
      have hnone : s.gain = none := Option.not_isSome_iff_eq_none.mp (by rw [hs.isSome]; exact Bool.false_ne_true)
      rw [hnone]
      constructor
      · rfl
      · rintro _ ⟨⟩
      · rintro _ ⟨⟩
  | true =>
      refine ⟨hs.isSome, fun g hg => ?_, fun g hg => ?_⟩
      · obtain ⟨handle, hcreate⟩ := hagc rfl i hi
        obtain ⟨j, hstart⟩ := hs.agc g hg
        have hget : (created channels.toNat (createAgc V.toVendor frequency))[i]? = some handle :=
          (getElem?_created (hagc rfl) hi).trans hcreate
        rw [← hfixed.createAgc frequency i j handle g.1 hcreate hstart]
        exact hget
      · have hget : (List.replicate channels.toNat (0 : ℤ))[i]? = some 0 := by
          rw [List.getElem?_replicate, if_pos hi]
        rw [hs.level g hg, ← hget, ← List.nil_append (List.replicate channels.toNat (0 : ℤ)), ← hnew.captureLevel]
        rfl

/-- **After an init call** every strip is the one that it starts. -/
theorem isStrips_init (hV : V.TenMs) (hfixed : V.FixedCreate) (hsupported : Supported frequency frames)
    (hnew : m₀.Constructed) (hinit : m₀.initNsModule calls frequency nsMode frames channels doAgc = (.ok true, m))
    {s : Strip V W} (hs : s.Start frequency nsMode frames.toNat doAgc) :
    IsStrips (Layout.ofFrames frames.toNat) channels.toNat ⟨frequency, channels, doAgc⟩ m fun _ => s := by
  obtain ⟨rfl, -, -, hns, hagc⟩ := initNsModule_ok hinit
  obtain ⟨hrate, hframes⟩ := hsupported
  have hsplit : Splittable frames.toNat ↔ frequency = 32000 ∨ frequency = 48000 := by
    unfold Splittable kSamplesPer32kHzChannel kSamplesPer48kHzChannel
    omega
  have hhandle : ∀ i < channels.toNat, createNs V calls frequency nsMode i = some s.ns := by
    intro i hi
    obtain ⟨handle, hcreate⟩ := hns i hi
    obtain ⟨calls', j, hstart⟩ := hs.ns
    rw [hcreate, hfixed.createNs calls calls' frequency nsMode i j handle s.ns hcreate hstart]
  refine
    { captureBuffer := ⟨_, rfl, bufferStrips_create hs⟩
      settings := settings_addAgcs _ _ _ _
      channels := rfl
      hasBands := ?_, gain := fun i hi => ?_, nsHandles := fun i hi => ?_, blockLen := fun i hi => ?_ }
  · rw [Layout.ofFrames, decide_eq_true_iff, hsplit]
    simp [Apm.HasBands, Apm.afterNs, Apm.startNs]
  · exact gainAt_init hfixed hnew hagc hs hi
  · simp only [Apm.afterNs, nsHandles_addAgcs]
    rw [getElem?_created hns hi, hhandle i hi]
  · have hblock : V.blockLen s.ns = if frequency = 8000 then 80 else 160 :=
      blockLen_created hV (List.mem_filterMap.mpr ⟨i, List.mem_range.mpr hi, hhandle i hi⟩)
    have hsamples : (Layout.ofFrames frames.toNat).samples =
        if Splittable frames.toNat then 160 else frames.toNat := rfl
    rw [hblock, hsamples, if_congr hsplit rfl rfl]
    split_ifs <;> omega

/-- After an init call for no channel. -/
theorem isIdle_init (hsupported : Supported frequency frames)
    (hinit : m₀.initNsModule calls frequency nsMode frames channels doAgc = (.ok true, m))
    (hzero : channels.toNat = 0) : IsIdle m := by
  obtain ⟨rfl, -⟩ := initNsModule_ok hinit
  obtain ⟨-, hframes⟩ := hsupported
  refine ⟨?_, _, rfl, fun hbands => ?_⟩
  · simpa [Apm.afterNs, Apm.startNs] using hzero
  · have hrate : frequency = 32000 ∨ frequency = 48000 := by
      simpa [Apm.HasBands, Apm.afterNs, Apm.startNs] using hbands
    have hsplit : Splittable frames.toNat := by
      unfold Splittable kSamplesPer32kHzChannel kSamplesPer48kHzChannel
      omega
    rw [sizes_create]
    exact decide_eq_true hsplit

end Start

/-! ## Every channel on its own -/

theorem channelOf_one {α : Type} (data : ℕ → α) : channelOf 1 0 data = data := by
  funext j
  rw [channelOf, Nat.zero_add, Nat.one_mul]

/-- **A channel comes back as from a mono module**: on every run of frames of `channels` channels, at a supported rate,
channel `i` is what a new mono module returns for channel `i` alone, and every call writes every sample of the
frame once. -/
theorem channels_independent (V : NsVendor F) [ExactHalves F] (W : V.toVendor.Channelwise) (hV : V.TenMs)
    (hagc : V.toVendor.AgcOwn) (hfixed : V.FixedCreate) (frequency : ℕ) (nsMode frames channels : ℤ) (doAgc : Bool)
    (hsupported : Supported frequency frames) (m₀ m : Apm F V) (calls : Calls) (hnew : m₀.Constructed)
    (hinit : m₀.init calls (.ns frequency nsMode frames channels doAgc) = (.ok true, m))
    (datas : List (ℕ → Int16)) :
    ∃ outs, m.captureStreamLogged frames channels datas = some outs ∧
      m.captureStream frames channels datas = some (outs.map Prod.fst) ∧
      (∀ i < channels.toNat, ∀ (m₁ m₁' : Apm F V) (calls' : Calls), m₁.Constructed →
        m₁.init calls' (.ns frequency nsMode frames 1 doAgc) = (.ok true, m₁') →
        m₁'.captureStream frames 1 (datas.map (channelOf channels.toNat i)) =
          some (outs.map fun out => channelOf channels.toNat i out.1)) ∧
      ∀ out ∈ outs, ∀ k < frames.toNat * channels.toNat, out.2.count k = 1 := by
  let log := interleaveLog frames.toNat channels.toNat
  -- A run without its logs is enough.
  suffices hrun : ∃ outs, m.captureStream frames channels datas = some outs ∧
      ∀ i < channels.toNat, ∀ (m₁ m₁' : Apm F V) (calls' : Calls), m₁.Constructed →
        m₁.init calls' (.ns frequency nsMode frames 1 doAgc) = (.ok true, m₁') →
        m₁'.captureStream frames 1 (datas.map (channelOf channels.toNat i)) =
          some (outs.map (channelOf channels.toNat i)) by
    obtain ⟨outs, hstream, hmono⟩ := hrun
    refine ⟨outs.map fun out => (out, log), ?_, ?_, fun i hi m₁ m₁' calls' hnew₁ hinit₁ => ?_, ?_⟩
    · rw [captureStreamLogged_eq, hstream]
      rfl
    · rw [hstream, List.map_map]
      exact congrArg some (List.map_id outs).symm
    · rw [hmono i hi m₁ m₁' calls' hnew₁ hinit₁, List.map_map]
      rfl
    · rintro _ hmem k hk
      obtain ⟨out, -, rfl⟩ := List.mem_map.mp hmem
      exact count_interleave channels.toNat frames.toNat (by rwa [Nat.mul_comm] at hk)
  by_cases hzero : channels.toNat = 0
  · exact ⟨datas, captureStream_idle (isIdle_init hsupported hinit hzero) hzero datas, fun i hi => absurd hi (by omega)⟩
  · obtain ⟨s, hs⟩ := exists_start (W := W) hinit (Nat.pos_of_ne_zero hzero)
    have hjoint := isStrips_init hV hfixed hsupported hnew hinit hs
    obtain ⟨outs, hstream, houts⟩ := captureStream_strip hV hagc hjoint rfl datas
    refine ⟨outs, hstream, fun i hi m₁ m₁' calls' hnew₁ hinit₁ => ?_⟩
    have hinitMono : m₁.initNsModule calls' frequency nsMode frames 1 doAgc = (.ok true, m₁') := hinit₁
    have hmono := isStrips_init hV hfixed hsupported hnew₁ hinitMono hs
    obtain ⟨outs₁, hstream₁, houts₁⟩ := captureStream_strip hV hagc hmono rfl (datas.map (channelOf channels.toNat i))
    have hsame := houts₁ 0 Nat.one_pos
    have hone : channelOf (α := Int16) 1 0 = id := funext channelOf_one
    have hnat : (1 : ℤ).toNat = 1 := rfl
    rw [hnat, hone, List.map_id, List.map_id] at hsame
    rw [hstream₁, houts i hi, hsame]

theorem dealAnalysis_apply {n bands ch : ℕ} (hch : ch < n) (x : ℕ → ℕ → Int16) (k : ℕ) :
    (dealAnalysis n bands x).2 k ch =
      fun j => if k < bands ∧ j < kSamplesPer16kHzChannel then x ch (bands * j + k) else 0 :=
  funext fun _ => if_congr (and_iff_right hch) rfl rfl

/-- The filter that deals samples out to the bands, channel by channel. -/
def dealChannelwise : delayNs.toVendor.Channelwise where
  State := Unit
  width f := f
  state _ _ := ()
  new := ()
  analyse _ k x := ((), fun band j => if band < k ∧ j < kSamplesPer16kHzChannel then x (k * j + band) else 0)
  synthesise _ k y := ((), fun j => y (j % k) (j / k))
  width_newFilter _ := rfl
  width_analysis _ _ _ := rfl
  width_synthesis _ _ _ := rfl
  state_newFilter _ _ _ := rfl
  state_analysis _ _ _ _ _ := rfl
  analysis _ _ x _ hch band _ := dealAnalysis_apply hch x band
  state_synthesis _ _ _ _ _ := rfl
  synthesis _ _ _ _ hch := funext fun _ => if_pos hch

theorem tenMs_delayNs : delayNs.TenMs := ⟨tenMs_plainNs.init, tenMs_plainNs.setPolicy, fun _ _ => rfl, fun _ _ _ => rfl⟩

theorem agcOwn_delayNs : delayNs.toVendor.AgcOwn where
  handle _ _ _ _ _ _ _ _ _ := rfl
  out _ _ _ _ _ _ _ _ _ := rfl
  outMicLevel _ _ _ _ _ _ _ _ _ := rfl

theorem fixedHandles_delayNs : delayNs.FixedCreate where
  createAgc := fixedCreate_delayNs.createAgc
  createNs _ _ frequency nsMode i j handle handle' h h' := by
    obtain ⟨_, h₁, -, hinit, hpolicy⟩ := createNs_eq_some h
    obtain ⟨_, h₁', -, hinit', hpolicy'⟩ := createNs_eq_some h'
    have hsame : h₁ = h₁' := Option.some.inj (hinit.symm.trans hinit')
    subst hsame
    exact Option.some.inj (hpolicy.symm.trans hpolicy')

/-- The right channel at 32000 Hz, with gain control. -/
theorem channels_independent_right : ∃ outs,
    (delayApm.afterNs .all 32000 0 320 2 true).captureStreamLogged 320 2 [fun p => Int16.ofNat p, fun _ => 7] =
      some outs ∧
    (delayApm.afterNs .all 32000 0 320 1 true).captureStream 320 1
        ([fun p => Int16.ofNat p, fun _ => 7].map (channelOf 2 1)) =
      some (outs.map fun out => channelOf 2 1 out.1) := by
  obtain ⟨outs, hlogged, -, hmono, -⟩ := channels_independent delayNs dealChannelwise tenMs_delayNs agcOwn_delayNs
    fixedHandles_delayNs 32000 0 320 2 true ⟨Or.inr (Or.inr (Or.inl rfl)), rfl⟩ delayApm _ .all constructed_delayApm rfl
    [fun p => Int16.ofNat p, fun _ => 7]
  exact ⟨outs, hlogged, hmono 1 (by decide) delayApm _ .all constructed_delayApm rfl⟩

end AudioProcess
