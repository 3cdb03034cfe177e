import AudioProcess.Apm.Bounds
import AudioProcess.Apm.Flags
import AudioProcess.Apm.Reinit

/-!
# One channel of a module

What `processCaptureStream` does to one channel, as a machine of its own: a `Strip` has one gain control, one noise
suppression, one filter state and one row of samples. A module of any number of channels is as many strips.

* `Vendor.Channelwise`: a splitting filter that filters every channel on its own; `Vendor.AgcOwn`: a gain control
  that writes what it is handed back;
* `Strip`, `Strip.read`, `split`, `control`, `suppress`, `merge`; `Strip.frame`: a call;
* `bandBuffers`, `StripsAt`: the bands during the loop over the channels;
* **`captureChannel_strip`**: a turn of that loop is a step of one strip and of no other.
-/

namespace AudioProcess

open CFloat CLoop

variable {F : Type} [CFloat F]

/-! ## Third-party code that keeps to its channel -/

/-- A splitting filter made for `width f` channels, with a state for each, that filters every channel on its
own. -/
structure Vendor.Channelwise (V : Vendor) where
  State : Type
  width : V.Filter → ℕ
  state : V.Filter → ℕ → State
  new : State
  analyse : State → ℕ → (ℕ → Int16) → State × (ℕ → ℕ → Int16)
  synthesise : State → ℕ → (ℕ → ℕ → Int16) → State × (ℕ → Int16)
  width_newFilter : ∀ n, width (V.newFilter n) = n
  width_analysis : ∀ f k x, width (V.analysis f k x).1 = width f
  width_synthesis : ∀ f k y, width (V.synthesis f k y).1 = width f
  state_newFilter : ∀ n, ∀ ch < n, state (V.newFilter n) ch = new
  state_analysis : ∀ f k x, ∀ ch < width f, state (V.analysis f k x).1 ch = (analyse (state f ch) k (x ch)).1
  analysis : ∀ f k x, ∀ ch < width f, ∀ band < k,
    (V.analysis f k x).2 band ch = (analyse (state f ch) k (x ch)).2 band
  state_synthesis : ∀ f k y, ∀ ch < width f,
    state (V.synthesis f k y).1 ch = (synthesise (state f ch) k fun band => y band ch).1
  synthesis : ∀ f k y, ∀ ch < width f,
    (V.synthesis f k y).2 ch = (synthesise (state f ch) k fun band => y band ch).2

/-- `WebRtcAgc_Process` does not read what `*outMicLevel` and `*saturationWarning` held, and writes `*outMicLevel`. -/
structure Vendor.AgcOwn (V : Vendor) : Prop where
  handle : ∀ h x n s l o w o' w',
    (V.agcProcess h x n s l o w).handle = (V.agcProcess h x n s l o' w').handle
  out : ∀ h x n s l o w o' w', (V.agcProcess h x n s l o w).out = (V.agcProcess h x n s l o' w').out
  outMicLevel : ∀ h x n s l o w o' w',
    (V.agcProcess h x n s l o w).outMicLevel = (V.agcProcess h x n s l o' w').outMicLevel

/-! ## The machine of a channel -/

/-- The sizes of a frame: its samples, and its bands of `samples` samples, from a filter or the frame itself. -/
structure Layout where
  frames : ℕ
  bands : ℕ
  samples : ℕ
  filtered : Bool
  pos : 0 < bands
  one : filtered = false → bands = 1

/-- One channel: its gain control with its level, if there is one, its noise suppression, its filter state, if there
is one, and its row of the full band. -/
structure Strip (V : NsVendor F) (W : V.toVendor.Channelwise) where
  gain : Option (V.Agc × ℤ)
  ns : V.Ns
  filter : Option W.State
  row : ℕ → Int16

/-- The first `n` rows, as a call is handed them. -/
def bandsOf {α : Type} (n : ℕ) (x : ℕ → ℕ → α) (k : ℕ) : Option (ℕ → α) := if k < n then some (x k) else none

namespace Strip

variable {V : NsVendor F} {W : V.toVendor.Channelwise}

omit [CFloat F] in
/-- The samples of a call go into the row. -/
def read (frames : ℕ) (data : ℕ → Int16) (s : Strip V W) : Strip V W :=
  { s with row := fun j => if j < frames then data j else s.row j }

omit [CFloat F] in
/-- The bands of the row. -/
def split (bands : ℕ) (s : Strip V W) : Strip V W × (ℕ → ℕ → Int16) :=
  match s.filter with
  | none => (s, fun _ => s.row)
  | some f =>
      let r := W.analyse f bands s.row
      ({ s with filter := some r.1 }, r.2)

omit [CFloat F] in
/-- The gain control on the bands, if there is one. -/
def control (bands samples : ℕ) (s : Strip V W) (x : ℕ → ℕ → Int16) : Strip V W × (ℕ → ℕ → Int16) :=
  match s.gain with
  | none => (s, x)
  | some (handle, level) =>
      let r := V.agcProcess handle (bandsOf bands x) bands (Int16.ofNat samples) level 0 0
      ({ s with gain := some (r.handle, r.outMicLevel) }, r.out)

/-- The noise suppression on the bands, through floats. -/
def suppress (bands : ℕ) (s : Strip V W) (x : ℕ → ℕ → Int16) : Strip V W × (ℕ → ℕ → Int16) :=
  let handle := V.nsAnalyze s.ns fun j => shortToFloat (x 0 j)
  let r := V.nsProcess handle (bandsOf bands fun k j => shortToFloat (x k j)) bands
  ({ s with ns := r.1 }, fun k j => floatS16ToS16 (r.2 k j))

omit [CFloat F] in
/-- The bands back into the row. -/
def merge (bands : ℕ) (s : Strip V W) (y : ℕ → ℕ → Int16) : Strip V W :=
  match s.filter with
  | none => { s with row := y 0 }
  | some f =>
      let r := W.synthesise f bands fun k => (bandsOf bands y k).getD fun _ => 0
      { s with filter := some r.1, row := r.2 }

/-- The gain control and the noise suppression. -/
def work (L : Layout) (p : Strip V W × (ℕ → ℕ → Int16)) : Strip V W × (ℕ → ℕ → Int16) :=
  let q := p.1.control L.bands L.samples p.2
  q.1.suppress L.bands q.2

section Filter

variable {s : Strip V W} {bands : ℕ} {x : ℕ → ℕ → Int16} {f : W.State}

omit [CFloat F] in
theorem split_none (h : s.filter = none) : s.split bands = (s, fun _ => s.row) := by
  unfold split
  rw [h]

omit [CFloat F] in
theorem split_some (h : s.filter = some f) : s.split bands =
    ({ s with filter := some (W.analyse f bands s.row).1 }, (W.analyse f bands s.row).2) := by
  unfold split
  rw [h]

omit [CFloat F] in
theorem merge_none (h : s.filter = none) : s.merge bands x = { s with row := x 0 } := by
  unfold merge
  rw [h]

omit [CFloat F] in
theorem merge_some (h : s.filter = some f) : s.merge bands x =
    { s with
      filter := some (W.synthesise f bands fun k => (bandsOf bands x k).getD fun _ => 0).1
      row := (W.synthesise f bands fun k => (bandsOf bands x k).getD fun _ => 0).2 } := by
  unfold merge
  rw [h]

variable (s bands x)

omit [CFloat F] in
@[simp] theorem gain_split : (s.split bands).1.gain = s.gain := by
  unfold split
  cases s.filter <;> rfl

omit [CFloat F] in
@[simp] theorem ns_split : (s.split bands).1.ns = s.ns := by
  unfold split
  cases s.filter <;> rfl

omit [CFloat F] in
@[simp] theorem gain_merge : (s.merge bands x).gain = s.gain := by
  unfold merge
  cases s.filter <;> rfl

omit [CFloat F] in
@[simp] theorem ns_merge : (s.merge bands x).ns = s.ns := by
  unfold merge
  cases s.filter <;> rfl

end Filter

section Control

variable {s : Strip V W} {bands samples : ℕ} {x : ℕ → ℕ → Int16}

omit [CFloat F] in
theorem control_none (h : s.gain = none) : s.control bands samples x = (s, x) := by
  unfold control
  rw [h]

omit [CFloat F] in
/-- Whatever `*outMicLevel` and `*saturationWarning` held. -/
theorem control_some (hV : V.toVendor.AgcOwn) {handle : V.Agc} {level : ℤ} (h : s.gain = some (handle, level))
    (o : ℤ) (w : UInt8) : s.control bands samples x =
      ({ s with
          gain := some ((V.agcProcess handle (bandsOf bands x) bands (Int16.ofNat samples) level o w).handle,
            (V.agcProcess handle (bandsOf bands x) bands (Int16.ofNat samples) level o w).outMicLevel) },
        (V.agcProcess handle (bandsOf bands x) bands (Int16.ofNat samples) level o w).out) := by
  unfold control
  rw [h, hV.handle _ _ _ _ _ o w 0 0, hV.out _ _ _ _ _ o w 0 0, hV.outMicLevel _ _ _ _ _ o w 0 0]

end Control

@[simp] theorem filter_work (L : Layout) (p : Strip V W × (ℕ → ℕ → Int16)) :
    (work L p).1.filter = p.1.filter := by
  unfold work suppress control
  cases p.1.gain <;> rfl

/-- A call, on one channel. -/
def frame (L : Layout) (s : Strip V W) (data : ℕ → Int16) : Strip V W :=
  let p := work L ((s.read L.frames data).split L.bands)
  p.1.merge L.bands p.2

end Strip

/-! ## The bands of a buffer -/

namespace AudioBuffer

variable {V : Vendor} (b : AudioBuffer F V)

omit [CFloat F] in
/-- The buffers of the bands; the full band when there is no filter. -/
def bandBuffers : List (IFChannelBuffer F) := if b.splitChannels = [] then [b.channels] else b.splitChannels

omit [CFloat F] in
theorem bandBuffers_updateBands (f : ℕ → IFChannelBuffer F → IFChannelBuffer F) :
    (b.updateBands f).bandBuffers = b.bandBuffers.mapIdx f := by
  unfold bandBuffers updateBands
  by_cases h : b.splitChannels = []
  · simp [h]
  · simp [h]

omit [CFloat F] in
theorem updateBands_updateBands (f g : ℕ → IFChannelBuffer F → IFChannelBuffer F) :
    (b.updateBands f).updateBands g = b.updateBands fun k s => g k (f k s) := by
  unfold updateBands
  by_cases h : b.splitChannels = []
  · simp [h]
  · simp only [if_neg h, List.mapIdx_eq_nil_iff, List.mapIdx_mapIdx]
    rfl

omit [CFloat F] in
theorem splittingFilter_updateBands (f : ℕ → IFChannelBuffer F → IFChannelBuffer F) :
    (b.updateBands f).splittingFilter = b.splittingFilter := by
  unfold updateBands
  split_ifs <;> rfl

omit [CFloat F] in
theorem bands_eq (ch : ℕ) : b.bands ch = fun k => b.bandBuffers[k]?.map fun s => s.ibufData ch := by
  funext k
  unfold bands bandBuffers
  by_cases h : b.splitChannels = []
  · rw [if_pos h, if_pos h, List.getElem?_singleton]
    split_ifs <;> rfl
  · rw [if_neg h, if_neg h]

omit [CFloat F] in
theorem bandsF_eq (ch : ℕ) : b.bandsF ch = fun k => b.bandBuffers[k]?.map fun s => s.fbufData ch := by
  funext k
  unfold bandsF bandBuffers
  by_cases h : b.splitChannels = []
  · rw [if_pos h, if_pos h, List.getElem?_singleton]
    split_ifs <;> rfl
  · rw [if_neg h, if_neg h]

end AudioBuffer

/-! ## The bands during the loop -/

section Bands

variable {n ch : ℕ} {cur : ℕ → ℕ → ℕ → Int16} {l : List (IFChannelBuffer F)}

/-- The bands of `n` channels are `cur`, before turn `ch` of the loop: those of the channels that are done are
perhaps rounded already, those of the others are not touched. -/
structure StripsAt (n ch : ℕ) (cur : ℕ → ℕ → ℕ → Int16) (l : List (IFChannelBuffer F)) : Prop where
  coherent : 0 < n → ∀ (k : ℕ) (s : IFChannelBuffer F), l[k]? = some s → s.Coherent
  ints : ∀ (k : ℕ) (s : IFChannelBuffer F), l[k]? = some s → ∀ i < n, s.ints i = cur i k
  floats : ∀ (k : ℕ) (s : IFChannelBuffer F), l[k]? = some s → ∀ i < n, ch ≤ i →
    s.floats i = fun j => shortToFloat (cur i k j)

/-- Replace the bands of channel `ch`. -/
theorem update_band {cur : ℕ → ℕ → ℕ → Int16} {out : ℕ → ℕ → Int16} {x : ℕ → ℕ → Int16} {k i : ℕ} (h : x i = cur i k) :
    Function.update x ch (out k) i = Function.update cur ch out i k := by
  by_cases hi : i = ch
  · subst hi
    rw [Function.update_self, Function.update_self]
  · rw [Function.update_of_ne hi, Function.update_of_ne hi, h]

/-- The gain control writes channel `ch` through `ibuf()`. -/
theorem StripsAt.write [ExactHalves F] (h : StripsAt n ch cur l) (out : ℕ → ℕ → Int16) :
    StripsAt n ch (Function.update cur ch out) (l.mapIdx fun k s => s.ibuf.write ch (out k)) := by
  have hget : ∀ (k : ℕ) (s' : IFChannelBuffer F), (l.mapIdx fun k s => s.ibuf.write ch (out k))[k]? = some s' →
      ∃ s, l[k]? = some s ∧ s' = { s.ibuf with ibufData := Function.update s.ints ch (out k) } := by
    intro k s' hs'
    rw [List.getElem?_mapIdx] at hs'
    obtain ⟨s, hs, rfl⟩ := Option.map_eq_some_iff.mp hs'
    exact ⟨s, hs, rfl⟩
  constructor
  · intro _ k s' hs'
    obtain ⟨s, -, rfl⟩ := hget k s' hs'
    exact IFChannelBuffer.coherent_ibuf_with _
  · intro k s' hs' i hi
    obtain ⟨s, hs, rfl⟩ := hget k s' hs'
    rw [IFChannelBuffer.ints_ibuf_with]
    exact update_band (h.ints k s hs i hi)
  · intro k s' hs' i hi _
    obtain ⟨s, hs, rfl⟩ := hget k s' hs'
    rw [IFChannelBuffer.floats_ibuf_with]
    exact funext fun j => congrArg shortToFloat (congrFun (update_band (h.ints k s hs i hi)) j)

/-- The noise suppression writes channel `ch` through `fbuf()`. -/
theorem StripsAt.writeF (h : StripsAt n ch cur l) (out : ℕ → ℕ → F) :
    StripsAt n (ch + 1) (Function.update cur ch fun k j => floatS16ToS16 (out k j))
      (l.mapIdx fun k s => s.fbufConst.fbuf.writeF ch (out k)) := by
  have hget : ∀ (k : ℕ) (s' : IFChannelBuffer F),
      (l.mapIdx fun k s => s.fbufConst.fbuf.writeF ch (out k))[k]? = some s' →
      ∃ s, l[k]? = some s ∧
        s' = { s.fbufConst.fbuf with fbufData := Function.update s.floats ch (out k) } := by
    intro k s' hs'
    rw [List.getElem?_mapIdx] at hs'
    obtain ⟨s, hs, rfl⟩ := Option.map_eq_some_iff.mp hs'
    refine ⟨s, hs, ?_⟩
    rw [IFChannelBuffer.writeF, IFChannelBuffer.fbufData_fbuf, IFChannelBuffer.floats_fbufConst]
  constructor
  · intro _ k s' hs'
    obtain ⟨s, -, rfl⟩ := hget k s' hs'
    exact IFChannelBuffer.coherent_fbuf_with _
  · intro k s' hs' i hi
    obtain ⟨s, hs, rfl⟩ := hget k s' hs'
    simp only [IFChannelBuffer.ints_fbuf_with]
    by_cases hic : i = ch
    · subst hic
      rw [Function.update_self, Function.update_self]
    · rw [Function.update_of_ne hic, Function.update_of_ne hic, ← h.ints k s hs i hi,
        (h.coherent (Nat.zero_lt_of_lt hi) k s hs).ints]
  · intro k s' hs' i hi hle
    obtain ⟨s, hs, rfl⟩ := hget k s' hs'
    have hic : i ≠ ch := by omega
    rw [IFChannelBuffer.floats_fbuf_with, Function.update_of_ne hic, Function.update_of_ne hic]
    exact h.floats k s hs i hi (by omega)

end Bands

/-! ## A turn of the loop -/

omit [CFloat F] in
/-- A buffer for `n` channels with the sizes of `L`. -/
structure BufferAt {V : Vendor} (L : Layout) (n : ℕ) (b : AudioBuffer F V) : Prop where
  rows : b.HasRows n L.frames
  splitChannels : b.splitChannels.length = if L.filtered then L.bands else 0
  numBands : b.numBands = L.bands
  samplesPerSplitChannel : b.samplesPerSplitChannel = L.samples

section Buffer

variable {V : Vendor} {L : Layout} {n : ℕ} {b : AudioBuffer F V}

omit [CFloat F] in
theorem BufferAt.updateBands (h : BufferAt L n b) {f : ℕ → IFChannelBuffer F → IFChannelBuffer F}
    (hf : ∀ k s, (f k s).dims = s.dims) : BufferAt L n (b.updateBands f) := by
  unfold AudioBuffer.updateBands
  split_ifs with hsplit
  · refine ⟨fun ch hch => ?_, h.splitChannels, h.numBands, h.samplesPerSplitChannel⟩
    have hdims := hf 0 b.channels
    have hrow := h.rows ch hch
    unfold IFChannelBuffer.Has at hrow ⊢
    rwa [show (f 0 b.channels).numChannels = b.channels.numChannels from congrArg Prod.fst hdims,
      show (f 0 b.channels).samplesPerChannel = b.channels.samplesPerChannel from congrArg Prod.snd hdims]
  · exact ⟨h.rows, List.length_mapIdx.trans h.splitChannels, h.numBands, h.samplesPerSplitChannel⟩

omit [CFloat F] in
theorem BufferAt.length_bandBuffers (h : BufferAt L n b) : b.bandBuffers.length = L.bands := by
  have hlen := h.splitChannels
  unfold AudioBuffer.bandBuffers
  cases hfiltered : L.filtered with
  | true =>
      rw [hfiltered, if_pos rfl] at hlen
      rw [if_neg (List.ne_nil_of_length_pos (hlen.symm ▸ L.pos)), hlen]
  | false =>
      rw [hfiltered, if_neg Bool.false_ne_true] at hlen
      rw [if_pos (List.eq_nil_of_length_eq_zero hlen)]
      exact (L.one hfiltered).symm

omit [CFloat F] in
/-- What a call is handed of bands that are `x` on channel `ch`. -/
theorem bandsOf_eq {α : Type} {l : List (IFChannelBuffer F)} {g : IFChannelBuffer F → ℕ → α} {x : ℕ → ℕ → α}
    (hlen : l.length = n) (h : ∀ (k : ℕ) (s : IFChannelBuffer F), l[k]? = some s → g s = x k) :
    (fun k => l[k]?.map g) = bandsOf n x := by
  funext k
  unfold bandsOf
  subst hlen
  split_ifs with hk
  · rw [List.getElem?_eq_getElem hk]
    exact congrArg some (h k _ (List.getElem?_eq_getElem hk))
  · rw [List.getElem?_eq_none (not_lt.mp hk)]
    rfl

end Buffer

section Turn

variable {V : NsVendor F} {W : V.toVendor.Channelwise} {L : Layout} {n ch : ℕ} {z : Settings}
  {filter : Option V.Filter} {cur : ℕ → Strip V W × (ℕ → ℕ → Int16)}

omit [CFloat F] in
/-- The gain control of channel `i` is `gain`. -/
structure GainAt (m : ApmNs F V.toVendor) (i : ℕ) (gain : Option (V.Agc × ℤ)) : Prop where
  isSome : gain.isSome = m.doAgc
  agcHandles : ∀ g, gain = some g → m.agcHandles[i]? = some g.1
  captureLevel : ∀ g, gain = some g → m.captureLevel[i]? = some g.2

section Gain

variable {m : ApmNs F V.toVendor} {i : ℕ} {gain : Option (V.Agc × ℤ)} {handle : V.Agc} {level : ℤ}

omit [CFloat F] in
theorem GainAt.set_self {g : V.Agc × ℤ} (h : GainAt m ch (some g)) :
    GainAt { m with
      agcHandles := m.agcHandles.set ch handle
      captureLevel := m.captureLevel.set ch level } ch (some (handle, level)) where
  isSome := h.isSome
  agcHandles := by
    rintro g ⟨⟩
    rw [List.getElem?_set_self']
    simp [h.agcHandles _ rfl]
  captureLevel := by
    rintro g ⟨⟩
    rw [List.getElem?_set_self']
    simp [h.captureLevel _ rfl]

omit [CFloat F] in
theorem GainAt.set_ne (h : GainAt m i gain) (hi : i ≠ ch) :
    GainAt { m with
      agcHandles := m.agcHandles.set ch handle
      captureLevel := m.captureLevel.set ch level } i gain where
  isSome := h.isSome
  agcHandles g hg := (List.getElem?_set_ne hi.symm).trans (h.agcHandles g hg)
  captureLevel g hg := (List.getElem?_set_ne hi.symm).trans (h.captureLevel g hg)

end Gain

/-- The loop over the channels before turn `ch`; channel `i` is the strip `(cur i).1` with the bands `(cur i).2`. -/
structure TurnAt (L : Layout) (n : ℕ) (z : Settings) (filter : Option V.Filter) (ch : ℕ)
    (cur : ℕ → Strip V W × (ℕ → ℕ → Int16)) (t : NsTurn F V) : Prop where
  buffer : BufferAt L n t.buffer
  filter : t.buffer.splittingFilter = filter
  settings : t.apm.settings = z
  bands : StripsAt n ch (fun i => (cur i).2) t.buffer.bandBuffers
  gain : ∀ i < n, GainAt t.apm i (cur i).1.gain
  nsHandles : ∀ i < n, t.nsHandles[i]? = some (cur i).1.ns
  blockLen : ∀ i < n, V.blockLen (cur i).1.ns ≤ L.samples

/-- Only the first `n` strips matter. -/
theorem TurnAt.congr {t : NsTurn F V} {cur' : ℕ → Strip V W × (ℕ → ℕ → Int16)} (h : TurnAt L n z filter ch cur t)
    (heq : ∀ i < n, cur i = cur' i) : TurnAt L n z filter ch cur' t where
  buffer := h.buffer
  filter := h.filter
  settings := h.settings
  bands :=
    { coherent := h.bands.coherent
      ints := fun k s hs i hi => heq i hi ▸ h.bands.ints k s hs i hi
      floats := fun k s hs i hi hle => heq i hi ▸ h.bands.floats k s hs i hi hle }
  gain i hi := heq i hi ▸ h.gain i hi
  nsHandles i hi := heq i hi ▸ h.nsHandles i hi
  blockLen i hi := heq i hi ▸ h.blockLen i hi

/-- The strip `ch` alone makes a step. -/
def stepStrip (cur : ℕ → Strip V W × (ℕ → ℕ → Int16)) (ch : ℕ)
    (f : Strip V W × (ℕ → ℕ → Int16) → Strip V W × (ℕ → ℕ → Int16)) : ℕ → Strip V W × (ℕ → ℕ → Int16) :=
  Function.update cur ch (f (cur ch))

omit [CFloat F] in
theorem stepStrip_bands (f : Strip V W × (ℕ → ℕ → Int16) → Strip V W × (ℕ → ℕ → Int16)) :
    (fun i => (stepStrip cur ch f i).2) = Function.update (fun i => (cur i).2) ch (f (cur ch)).2 :=
  Function.comp_update Prod.snd cur ch (f (cur ch))

omit [CFloat F] in
/-- A property of every strip, when strip `ch` makes a step. -/
theorem forall_stepStrip {f : Strip V W × (ℕ → ℕ → Int16) → Strip V W × (ℕ → ℕ → Int16)} {P : ℕ → Strip V W → Prop}
    (hch : P ch (f (cur ch)).1) (h : ∀ i < n, i ≠ ch → P i (cur i).1) : ∀ i < n, P i (stepStrip cur ch f i).1 := by
  intro i hi
  unfold stepStrip
  by_cases hic : i = ch
  · subst hic
    rwa [Function.update_self]
  · rw [Function.update_of_ne hic]
    exact h i hi hic

variable {t : NsTurn F V}

/-- The bands that the gain control is handed. -/
theorem TurnAt.bands_open (h : TurnAt L n z filter ch cur t) (hch : ch < n) :
    (t.buffer.updateBands fun _ s => s.ibuf).bands ch = bandsOf L.bands (cur ch).2 := by
  rw [AudioBuffer.bands_eq, AudioBuffer.bandBuffers_updateBands]
  simp only [List.getElem?_mapIdx, Option.map_map]
  exact bandsOf_eq h.buffer.length_bandBuffers fun k s hs => h.bands.ints k s hs ch hch

/-- **The gain control is a step of strip `ch`.** -/
theorem TurnAt.control [ExactHalves F] (hV : V.toVendor.AgcOwn) (h : TurnAt L n z filter ch cur t) (hch : ch < n) :
    ∃ turn, (if t.apm.doAgc then agcChannel ch t.toTurn else some t.toTurn) = some turn ∧
      TurnAt L n z filter ch (stepStrip cur ch fun p => p.1.control L.bands L.samples p.2)
        { t with toTurn := turn } := by
  have hgain := h.gain ch hch
  cases hg : (cur ch).1.gain with
  | none =>
      have hdo : ¬ t.apm.doAgc = true := by
        rw [← hgain.isSome, hg]
        exact Bool.false_ne_true
      have hsame : (stepStrip cur ch fun p => p.1.control L.bands L.samples p.2) = cur := by
        simp only [stepStrip, Strip.control_none hg]
        exact Function.update_eq_self ch cur
      refine ⟨t.toTurn, if_neg hdo, ?_⟩
      rw [hsame]
      exact h
  | some g =>
      obtain ⟨handle, level⟩ := g
      have hdo : t.apm.doAgc = true := by
        rw [← hgain.isSome, hg]
        rfl
      have hcall := agcChannel_of (hgain.agcHandles _ hg) (hgain.captureLevel _ hg)
        (if_pos (h.buffer.rows ch hch).1)
      have hopen : BufferAt L n (t.buffer.updateBands fun _ s => s.ibuf) :=
        h.buffer.updateBands fun _ s => s.dims_ibuf
      rw [h.bands_open hch, hopen.numBands, hopen.samplesPerSplitChannel] at hcall
      refine ⟨_, (if_pos hdo).trans hcall, ?_⟩
      let r := V.agcProcess handle (bandsOf L.bands (cur ch).2) L.bands (Int16.ofNat L.samples) level t.captureLevel
        t.streamIsSaturated
      have hstep : (cur ch).1.control L.bands L.samples (cur ch).2 =
        ({ (cur ch).1 with gain := some (r.handle, r.outMicLevel) }, r.out) := Strip.control_some hV hg _ _
      refine
        { buffer := hopen.updateBands fun _ s => s.dims_write ch _
          filter := ?_, settings := h.settings, bands := ?_, gain := ?_, nsHandles := ?_, blockLen := ?_ }
      · rw [AudioBuffer.splittingFilter_updateBands, AudioBuffer.splittingFilter_updateBands]
        exact h.filter
      · rw [stepStrip_bands, hstep, AudioBuffer.bandBuffers_updateBands, AudioBuffer.bandBuffers_updateBands,
          List.mapIdx_mapIdx]
        exact h.bands.write r.out
      · refine forall_stepStrip (P := fun i s => GainAt _ i s.gain) ?_ fun i hi hic => (h.gain i hi).set_ne hic
        rw [hstep]
        exact (hg ▸ hgain).set_self
      · refine forall_stepStrip (P := fun i s => t.nsHandles[i]? = some s.ns) ?_ fun i hi _ => h.nsHandles i hi
        rw [hstep]
        exact h.nsHandles ch hch
      · refine forall_stepStrip (P := fun _ s => V.blockLen s.ns ≤ L.samples) ?_ fun i hi _ => h.blockLen i hi
        rw [hstep]
        exact h.blockLen ch hch

/-- The noise suppression on a channel that has a handle and bands. -/
theorem nsChannel_of {handle : V.Ns} {b b' : AudioBuffer F V.toVendor} {band : ℕ → F}
    (hhandle : t.nsHandles[ch]? = some handle) (hopen : t.buffer.splitBandsConstF ch = some b)
    (hband : b.bandsF ch 0 = some band) (hblock : ¬ b.samplesPerSplitChannel < V.blockLen handle)
    (hopen' : b.splitBandsF ch = some b') :
    nsChannel ch t = some
      (let r := V.nsProcess (V.nsAnalyze handle band) (b'.bandsF ch) b'.numBands
      { t with
        buffer := b'.updateBands fun k s => s.writeF ch (r.2 k)
        nsHandles := t.nsHandles.set ch r.1 }) := by
  simp only [nsChannel, hhandle, hopen, Option.bind_eq_bind, Option.bind_some, hband, if_neg hblock, hopen']
  rfl

/-- The bands that the noise suppression is handed. -/
theorem TurnAt.bandsF_open (h : TurnAt L n z filter ch cur t) (hch : ch < n)
    {f : ℕ → IFChannelBuffer F → IFChannelBuffer F} (hf : ∀ k s, (f k s).fbufData = s.floats) :
    (t.buffer.updateBands f).bandsF ch = bandsOf L.bands fun k j => shortToFloat ((cur ch).2 k j) := by
  rw [AudioBuffer.bandsF_eq, AudioBuffer.bandBuffers_updateBands]
  simp only [List.getElem?_mapIdx, Option.map_map, Function.comp_def, hf]
  exact bandsOf_eq h.buffer.length_bandBuffers fun k s hs => h.bands.floats k s hs ch hch le_rfl

/-- **The noise suppression is a step of strip `ch`.** -/
theorem TurnAt.suppress (hV : V.TenMs) (h : TurnAt L n z filter ch cur t) (hch : ch < n) :
    ∃ t', nsChannel ch t = some t' ∧
      TurnAt L n z filter (ch + 1) (stepStrip cur ch fun p => p.1.suppress L.bands p.2) t' := by
  have hb : BufferAt L n (t.buffer.updateBands fun _ s => s.fbufConst) :=
    h.buffer.updateBands fun _ s => s.dims_fbufConst
  have hb' : BufferAt L n (t.buffer.updateBands fun _ s => s.fbufConst.fbuf) :=
    h.buffer.updateBands fun _ s => s.fbufConst.dims_fbuf.trans s.dims_fbufConst
  have hband : (t.buffer.updateBands fun _ s => s.fbufConst).bandsF ch 0 =
      some fun j => shortToFloat ((cur ch).2 0 j) := by
    rw [h.bandsF_open hch fun _ _ => rfl]
    exact if_pos L.pos
  have hblock : ¬ (t.buffer.updateBands fun _ s => s.fbufConst).samplesPerSplitChannel <
      V.blockLen (cur ch).1.ns := by
    rw [hb.samplesPerSplitChannel]
    exact not_lt.mpr (h.blockLen ch hch)
  have hcall := nsChannel_of (h.nsHandles ch hch) (if_pos (h.buffer.rows ch hch).1) hband hblock
    (if_pos (hb.rows ch hch).1)
  have hbands : (t.buffer.updateBands fun _ s => s.fbufConst.fbuf).bandsF ch =
      bandsOf L.bands fun k j => shortToFloat ((cur ch).2 k j) :=
    h.bandsF_open hch fun _ s => s.floats_fbufConst
  rw [AudioBuffer.updateBands_updateBands, hbands, hb'.numBands] at hcall
  refine ⟨_, hcall, ?_⟩
  let r := V.nsProcess (V.nsAnalyze (cur ch).1.ns fun j => shortToFloat ((cur ch).2 0 j))
    (bandsOf L.bands fun k j => shortToFloat ((cur ch).2 k j)) L.bands
  have hstep : (cur ch).1.suppress L.bands (cur ch).2 =
    ({ (cur ch).1 with ns := r.1 }, fun k j => floatS16ToS16 (r.2 k j)) := rfl
  refine
    { buffer := hb'.updateBands fun _ s => s.dims_writeF ch _
      filter := ?_, settings := h.settings, bands := ?_, gain := ?_, nsHandles := ?_, blockLen := ?_ }
  · rw [AudioBuffer.splittingFilter_updateBands, AudioBuffer.splittingFilter_updateBands]
    exact h.filter
  · have hwrite : (((t.buffer.updateBands fun _ s => s.fbufConst.fbuf).updateBands fun k s =>
        s.writeF ch (r.2 k))).bandBuffers =
        t.buffer.bandBuffers.mapIdx fun k s => s.fbufConst.fbuf.writeF ch (r.2 k) := by
      rw [AudioBuffer.updateBands_updateBands, AudioBuffer.bandBuffers_updateBands]
    rw [stepStrip_bands, hstep]
    exact hwrite ▸ h.bands.writeF r.2
  · exact forall_stepStrip (P := fun i s => GainAt _ i s.gain) (h.gain ch hch) fun i hi _ => h.gain i hi
  · refine forall_stepStrip (P := fun i s => (t.nsHandles.set ch r.1)[i]? = some s.ns) ?_ fun i hi hic => ?_
    · rw [List.getElem?_set_self', h.nsHandles ch hch]
      rfl
    · exact (List.getElem?_set_ne hic.symm).trans (h.nsHandles i hi)
  · refine forall_stepStrip (P := fun _ s => V.blockLen s.ns ≤ L.samples) ?_ fun i hi _ => h.blockLen i hi
    rw [hstep, hV.process, hV.analyze]
    exact h.blockLen ch hch

variable [ExactHalves F]

/-- **A turn of the loop is a step of strip `ch`** and of no other. -/
theorem captureChannel_strip (hV : V.TenMs) (hagc : V.toVendor.AgcOwn) (h : TurnAt L n z filter ch cur t)
    (hch : ch < n) :
    ∃ t', captureChannel ch t = some t' ∧ TurnAt L n z filter (ch + 1) (stepStrip cur ch (Strip.work L)) t' := by
  obtain ⟨turn, hturn, hcontrol⟩ := h.control hagc hch
  obtain ⟨t', ht', hsuppress⟩ := hcontrol.suppress hV hch
  refine ⟨t', ?_, ?_⟩
  · rw [captureChannel_eq, hturn]
    exact ht'
  · have hwork : stepStrip (stepStrip cur ch fun p => p.1.control L.bands L.samples p.2) ch
        (fun p => p.1.suppress L.bands p.2) = stepStrip cur ch (Strip.work L) := by
      unfold stepStrip
      rw [Function.update_self, Function.update_idem]
      rfl
    rwa [hwork] at hsuppress

/-- **The loop is a step of every strip.** -/
theorem captureLoop_strip (hV : V.TenMs) (hagc : V.toVendor.AgcOwn) (h : TurnAt L n z filter 0 cur t) :
    ∃ t', forLoopM 0 n captureChannel t = some t' ∧ TurnAt L n z filter n (fun i => Strip.work L (cur i)) t' := by
  have hloop : ∃ t', forLoopM 0 n captureChannel t = some t' ∧
      TurnAt L n z filter n (fun i => if i < n then Strip.work L (cur i) else cur i) t' := by
    refine forLoopM_induction
      (fun k t => TurnAt L n z filter k (fun i => if i < k then Strip.work L (cur i) else cur i) t)
      (Nat.zero_le n) h fun k t _ hk ht => ?_
    obtain ⟨t', ht', hturn⟩ := captureChannel_strip hV hagc ht hk
    refine ⟨t', ht', ?_⟩
    have hnext : stepStrip (fun i => if i < k then Strip.work L (cur i) else cur i) k (Strip.work L) =
        fun i => if i < k + 1 then Strip.work L (cur i) else cur i := by
      funext i
      unfold stepStrip
      by_cases hik : i = k
      · subst hik
        simp
      · rw [Function.update_of_ne hik]
        exact if_congr (by omega) rfl rfl
    rwa [hnext] at hturn
  obtain ⟨t', ht', hturn⟩ := hloop
  exact ⟨t', ht', hturn.congr fun i hi => if_pos hi⟩

end Turn

end AudioProcess
