import AudioProcess.Apm.Channels
import AudioProcess.Apm.Reconstruct
import AudioProcess.Apm.SplittingFilter

/-!
# The module with its splitting filter

The results about `processCaptureStream` take the splitting filter as third-party code; here it is the one of
`splitting_filter.cc`.

* `SafeFilter`: a splitting filter in a reachable state; `NsVendor.withFilter`; `channelwise`: it filters every channel
  on its own;
* `process`: the gain control and the noise suppression of a channel; `bandFrames`: the bands of a whole signal,
  frame by frame;
* **`capture_bands`**: at 32000 Hz a run splits the whole signal of a channel once, and merges the bands that come from
  the gain control and the noise suppression once;
* **`capture_near`**: where these change nothing, the signal comes back through an all-pass filter.
-/

namespace AudioProcess

open CFloat CLoop Mem

variable {F : Type} {R : Resampler}

/-! ## The filter in the module -/

/-- A splitting filter in a reachable state, and how many calls were made. -/
structure SafeFilter (R : Resampler) where
  filter : SplittingFilter R
  calls : ℕ
  reachable : ∀ i < filter.channels, (filter.channel i).Reachable

/-- `Analysis` of one channel in bands of 10 ms, into memory that is zero. -/
def ChannelFilter.analyseTenMs (c : ChannelFilter R) (numBands : ℕ) (x : ℕ → Int16) :
    ChannelFilter R × (ℕ → ℕ → Int16) :=
  if numBands = 2 ∨ numBands = 3 then
    let r := c.analyse numBands kSamplesPer16kHzChannel x
    (r.1, SplittingFilter.overlay numBands kSamplesPer16kHzChannel r.2 fun _ _ => 0)
  else (c, fun _ _ => 0)

/-- `Synthesis` of one channel from bands of 10 ms, into memory that is zero. -/
def ChannelFilter.synthesiseTenMs (c : ChannelFilter R) (numBands : ℕ) (y : ℕ → ℕ → Int16) :
    ChannelFilter R × (ℕ → Int16) :=
  if numBands = 2 ∨ numBands = 3 then
    let r := c.synthesise numBands kSamplesPer16kHzChannel y
    (r.1, SplittingFilter.overwrite (numBands * kSamplesPer16kHzChannel) r.2 fun _ => 0)
  else (c, fun _ => 0)

theorem sizes_tenMs {numBands : ℕ} (h : numBands = 2 ∨ numBands = 3) : BandSizes numBands kSamplesPer16kHzChannel := by
  rcases h with rfl | rfl
  · exact Or.inl ⟨rfl, by decide, by decide⟩
  · exact Or.inr ⟨rfl, rfl⟩

namespace SafeFilter

/-- `Analysis` in bands of 10 ms. -/
theorem exists_analysis (junk : Garbage) (f : SafeFilter R) (numBands : ℕ) (x : Rows) : ∃ f' bands',
    f.filter.analysis junk.locals junk.fresh x (numBands * kSamplesPer16kHzChannel) numBands (fun _ _ _ => 0) =
      some (f', bands') ∧ (∀ i < f'.channels, (f'.channel i).Reachable) ∧ f'.channels = f.filter.channels ∧
      ∀ i < f.filter.channels, f'.channel i = ((f.filter.channel i).analyseTenMs numBands (x i)).1 ∧
        (fun band => bands' band i) = ((f.filter.channel i).analyseTenMs numBands (x i)).2 := by
  by_cases h : numBands = 2 ∨ numBands = 3
  · obtain ⟨f', bands', hcall, hwidth, hcells⟩ :=
      SplittingFilter.analysis_eq junk.locals junk.fresh x (sizes_tenMs h) f.reachable fun _ _ _ => 0
    refine ⟨f', bands', hcall, fun i hi => ?_, hwidth, fun i hi => ?_⟩
    · rw [(hcells i (hwidth ▸ hi)).1]
      exact (f.reachable i (hwidth ▸ hi)).analyse ..
    · rw [ChannelFilter.analyseTenMs, if_pos h]
      exact ⟨(hcells i hi).1, funext (hcells i hi).2⟩
  · refine ⟨f.filter, fun _ _ _ => 0, ?_, f.reachable, rfl, fun i _ => ?_⟩
    · rw [not_or] at h
      rw [SplittingFilter.analysis, if_neg h.1, if_neg h.2]
    · rw [ChannelFilter.analyseTenMs, if_neg h]
      exact ⟨rfl, rfl⟩

/-- `Synthesis` from bands of 10 ms. -/
theorem exists_synthesis (junk : Garbage) (f : SafeFilter R) (numBands : ℕ) (y : Bands) : ∃ f' out',
    f.filter.synthesis junk.locals junk.fresh y kSamplesPer16kHzChannel numBands (fun _ _ => 0) = some (f', out') ∧
      (∀ i < f'.channels, (f'.channel i).Reachable) ∧ f'.channels = f.filter.channels ∧
      ∀ i < f.filter.channels,
        f'.channel i = ((f.filter.channel i).synthesiseTenMs numBands fun band => y band i).1 ∧
          out' i = ((f.filter.channel i).synthesiseTenMs numBands fun band => y band i).2 := by
  by_cases h : numBands = 2 ∨ numBands = 3
  · obtain ⟨f', out', hcall, hwidth, hcells⟩ :=
      SplittingFilter.synthesis_eq junk.locals junk.fresh y (sizes_tenMs h) f.reachable fun _ _ => 0
    refine ⟨f', out', hcall, fun i hi => ?_, hwidth, fun i hi => ?_⟩
    · rw [(hcells i (hwidth ▸ hi)).1]
      exact (f.reachable i (hwidth ▸ hi)).synthesise ..
    · rw [ChannelFilter.synthesiseTenMs, if_pos h]
      exact hcells i hi
  · refine ⟨f.filter, fun _ _ => 0, ?_, f.reachable, rfl, fun i _ => ?_⟩
    · rw [not_or] at h
      rw [SplittingFilter.synthesis, if_neg h.1, if_neg h.2]
    · rw [ChannelFilter.synthesiseTenMs, if_neg h]
      exact ⟨rfl, rfl⟩

/-- A new filter. -/
def create (R : Resampler) (channels : ℕ) : SafeFilter R :=
  ⟨.create R channels, 0, fun _ _ => ChannelFilter.reachable_new⟩

variable (junk : ℕ → Garbage) (f : SafeFilter R) (numBands : ℕ)

/-- `Analysis` in bands of 10 ms, into memory that is zero. -/
def analysis (x : Rows) : SafeFilter R × Bands :=
  match h : f.filter.analysis (junk f.calls).locals (junk f.calls).fresh x (numBands * kSamplesPer16kHzChannel) numBands
      fun _ _ _ => 0 with
  | none => (f, fun _ _ _ => 0)
  | some r => (⟨r.1, f.calls + 1, by
      obtain ⟨_, _, hcall, hreach, -⟩ := exists_analysis (junk f.calls) f numBands x
      rw [← Option.some.inj (hcall.symm.trans h)]
      exact hreach⟩, r.2)

/-- `Synthesis` from bands of 10 ms, into memory that is zero. -/
def synthesis (y : Bands) : SafeFilter R × Rows :=
  match h : f.filter.synthesis (junk f.calls).locals (junk f.calls).fresh y kSamplesPer16kHzChannel numBands
      fun _ _ => 0 with
  | none => (f, fun _ _ => 0)
  | some r => (⟨r.1, f.calls + 1, by
      obtain ⟨_, _, hcall, hreach, -⟩ := exists_synthesis (junk f.calls) f numBands y
      rw [← Option.some.inj (hcall.symm.trans h)]
      exact hreach⟩, r.2)

variable {junk f numBands}

theorem analysis_spec (x : Rows) : (f.analysis junk numBands x).1.filter.channels = f.filter.channels ∧
    ∀ i < f.filter.channels,
      (f.analysis junk numBands x).1.filter.channel i = ((f.filter.channel i).analyseTenMs numBands (x i)).1 ∧
        (fun band => (f.analysis junk numBands x).2 band i) =
          ((f.filter.channel i).analyseTenMs numBands (x i)).2 := by
  obtain ⟨f', bands', hcall, -, hspec⟩ := exists_analysis (junk f.calls) f numBands x
  unfold analysis
  split
  · next h => exact absurd (h.symm.trans hcall) (by simp)
  · next r h =>
      obtain rfl : (f', bands') = r := Option.some.inj (hcall.symm.trans h)
      exact hspec

theorem synthesis_spec (y : Bands) : (f.synthesis junk numBands y).1.filter.channels = f.filter.channels ∧
    ∀ i < f.filter.channels, (f.synthesis junk numBands y).1.filter.channel i =
        ((f.filter.channel i).synthesiseTenMs numBands fun band => y band i).1 ∧
      (f.synthesis junk numBands y).2 i = ((f.filter.channel i).synthesiseTenMs numBands fun band => y band i).2 := by
  obtain ⟨f', out', hcall, -, hspec⟩ := exists_synthesis (junk f.calls) f numBands y
  unfold synthesis
  split
  · next h => exact absurd (h.symm.trans hcall) (by simp)
  · next r h =>
      obtain rfl : (f', out') = r := Option.some.inj (hcall.symm.trans h)
      exact hspec

end SafeFilter

/-- Third-party code with the splitting filter of this repository, whose call `k` finds `junk k` in the memory that it
does not initialise. -/
abbrev NsVendor.withFilter (V : NsVendor F) (R : Resampler) (junk : ℕ → Garbage) : NsVendor F :=
  { V with
    Filter := SafeFilter R
    newFilter := SafeFilter.create R
    analysis := fun f numBands x => f.analysis junk numBands x
    synthesis := fun f numBands y => f.synthesis junk numBands y }

variable {V : NsVendor F} {junk : ℕ → Garbage}

/-- **The splitting filter keeps to its channels.** -/
abbrev channelwise (V : NsVendor F) (R : Resampler) (junk : ℕ → Garbage) :
    (V.withFilter R junk).toVendor.Channelwise where
  State := ChannelFilter R
  width f := f.filter.channels
  state f ch := f.filter.channel ch
  new := .new R
  analyse := ChannelFilter.analyseTenMs
  synthesise := ChannelFilter.synthesiseTenMs
  width_newFilter _ := rfl
  width_analysis _ _ x := (SafeFilter.analysis_spec x).1
  width_synthesis _ _ y := (SafeFilter.synthesis_spec y).1
  state_newFilter _ _ _ := rfl
  state_analysis _ _ x ch hch := ((SafeFilter.analysis_spec x).2 ch hch).1
  analysis _ _ x ch hch band _ := congrFun ((SafeFilter.analysis_spec x).2 ch hch).2 band
  state_synthesis _ _ y ch hch := ((SafeFilter.synthesis_spec y).2 ch hch).1
  synthesis _ _ y ch hch := ((SafeFilter.synthesis_spec y).2 ch hch).2

theorem NsVendor.TenMs.withFilter (h : V.TenMs) : (V.withFilter R junk).TenMs :=
  ⟨h.init, h.setPolicy, h.analyze, h.process⟩

theorem Vendor.AgcOwn.withFilter (h : V.toVendor.AgcOwn) : (V.withFilter R junk).toVendor.AgcOwn :=
  ⟨h.handle, h.out, h.outMicLevel⟩

theorem NsVendor.FixedCreate.withFilter (h : V.FixedCreate) : (V.withFilter R junk).FixedCreate where
  createAgc := h.createAgc
  createNs := h.createNs

/-! ## One channel at 32000 Hz -/

variable [CFloat F]

/-- The gain control and the noise suppression of a channel, on its bands. -/
def process (V : NsVendor F) (L : Layout) (s : Option (V.Agc × ℤ) × V.Ns) (x : ℕ → ℕ → Int16) :
    (ℕ → ℕ → Int16) × (Option (V.Agc × ℤ) × V.Ns) :=
  let c : Option (V.Agc × ℤ) × (ℕ → ℕ → Int16) :=
    match s.1 with
    | none => (none, x)
    | some (handle, level) =>
        let r := V.agcProcess handle (bandsOf L.bands x) L.bands (Int16.ofNat L.samples) level 0 0
        (some (r.handle, r.outMicLevel), r.out)
  let handle := V.nsAnalyze s.2 fun j => shortToFloat (c.2 0 j)
  let r := V.nsProcess handle (bandsOf L.bands fun k j => shortToFloat (c.2 k j)) L.bands
  (fun k j => floatS16ToS16 (r.2 k j), (c.1, r.1))

/-- A frame of 10 ms at 32000 Hz. -/
def layout32 : Layout := Layout.ofFrames kSamplesPer32kHzChannel

/-- The two bands of frame `t` of a signal. -/
def bandFrame (s : Branches) (x : ℕ → Int16) (t : ℕ) : ℕ → ℕ → Int16 :=
  SplittingFilter.overlay 2 kSamplesPer16kHzChannel (fun band j =>
    if band = 0 then lowBandOf s x (kSamplesPer16kHzChannel * t + j)
    else highBandOf s x (kSamplesPer16kHzChannel * t + j)) fun _ _ => 0

/-- The two bands of a signal, frame by frame. -/
def bandFrames (s : Branches) (x : List Int16) (n : ℕ) : List (ℕ → ℕ → Int16) :=
  (List.range n).map (bandFrame s (cellsOf x))

/-- The signal of frames at 32000 Hz. -/
def streamOf (datas : List (ℕ → Int16)) : List Int16 := datas.flatMap fun d => readCells d 0 kSamplesPer32kHzChannel

/-- A band of frames. -/
def rowsOf (band : ℕ) (ys : List (ℕ → ℕ → Int16)) : List Int16 :=
  ys.flatMap fun y => readCells (y band) 0 kSamplesPer16kHzChannel

section Strip

variable {s : Strip (V.withFilter R junk) (channelwise V R junk)} {c : ChannelFilter R}

theorem work_eq (L : Layout) (s : Strip (V.withFilter R junk) (channelwise V R junk)) (x : ℕ → ℕ → Int16) :
    Strip.work L (s, x) = ({ s with
      gain := (process V L (s.gain, s.ns) x).2.1
      ns := (process V L (s.gain, s.ns) x).2.2 }, (process V L (s.gain, s.ns) x).1) := by
  obtain ⟨gain, ns, filter, row⟩ := s
  cases gain <;> rfl

/-- A call on a channel: the bands of the frame, and the frame of the bands. -/
theorem call_eq (hs : s.filter = some c) (data : ℕ → Int16) {x : ℕ → ℕ → Int16}
    (hx : x = bandFrame c.whole.analysis (cellsOf (readCells data 0 kSamplesPer32kHzChannel)) 0)
    {p : (ℕ → ℕ → Int16) × (Option (V.Agc × ℤ) × V.Ns)} (hp : p = process V layout32 (s.gain, s.ns) x) :
    readCells (Strip.call layout32 s data).1 0 kSamplesPer32kHzChannel =
        (List.range kSamplesPer32kHzChannel).map (fullBandOf c.whole.synthesis (p.1 0) (p.1 1)) ∧
      ∃ c' : ChannelFilter R, (Strip.call layout32 s data).2.filter = some c' ∧
        c'.whole.analysis = analysed c.whole.analysis (cellsOf (readCells data 0 kSamplesPer32kHzChannel))
          kSamplesPer16kHzChannel ∧
        c'.whole.synthesis = synthesised c.whole.synthesis (p.1 0) (p.1 1) kSamplesPer16kHzChannel ∧
        ((Strip.call layout32 s data).2.gain, (Strip.call layout32 s data).2.ns) = p.2 := by
  have hbands : layout32.bands = 2 := rfl
  obtain ⟨row, hrow⟩ : ∃ row, row = fun j => if j < kSamplesPer32kHzChannel then data j else s.row j := ⟨_, rfl⟩
  have hcells : ∀ k < 2 * kSamplesPer16kHzChannel, row k = cellsOf (readCells data 0 kSamplesPer32kHzChannel) k := by
    intro k hk
    rw [cellsOf_readCells data (show k < kSamplesPer32kHzChannel from hk), hrow]
    exact if_pos hk
  have hread : s.read layout32.frames data = { s with row := row } := by rw [hrow]; rfl
  have hsplit : Strip.split 2 { s with row := row } =
      ({ s with filter := some (c.analyseTwo kSamplesPer16kHzChannel row).1, row := row }, x) := by
    rw [Strip.split_some (s := { s with row := row }) hs]
    refine Prod.ext rfl ?_
    rw [hx]
    funext band k
    refine ite_congr rfl (fun hk => ?_) fun _ => rfl
    rw [Nat.mul_zero, Nat.zero_add, ← lowBandOf_congr hcells hk.2, ← highBandOf_congr hcells hk.2]
    by_cases hband : band = 0
    · subst hband
      rfl
    · simp [ChannelFilter.analyse, ChannelFilter.analyseTwo, hband]
  have hmerge : Strip.frame layout32 s data =
      { gain := p.2.1
        ns := p.2.2
        filter := some ((c.analyseTwo kSamplesPer16kHzChannel row).1.synthesiseTwo kSamplesPer16kHzChannel
          fun band => (bandsOf 2 p.1 band).getD fun _ => 0).1
        row := SplittingFilter.overwrite (2 * kSamplesPer16kHzChannel) (fullBandOf c.whole.synthesis (p.1 0) (p.1 1))
          fun _ => 0 } := by
    unfold Strip.frame
    simp only [hread, hbands, hsplit, work_eq, ← hp]
    rw [Strip.merge_some rfl]
    rfl
  unfold Strip.call
  simp only [hmerge]
  refine ⟨List.map_congr_left fun k hk => ?_, _, rfl, analysed_congr hcells, rfl, trivial⟩
  have hk' : 0 + k < kSamplesPer32kHzChannel := by rw [Nat.zero_add]; exact List.mem_range.mp hk
  exact (if_pos hk').trans ((if_pos hk').trans (by rw [Nat.zero_add]))

theorem length_streamOf (datas : List (ℕ → Int16)) :
    (streamOf datas).length = 2 * (kSamplesPer16kHzChannel * datas.length) := by
  induction datas with
  | nil => rfl
  | cons data datas ih =>
      rw [streamOf, List.flatMap_cons, List.length_append, length_readCells, ← streamOf, ih, List.length_cons]
      unfold kSamplesPer32kHzChannel kSamplesPer16kHzChannel
      omega

section Frames

variable {states : Branches} {frame rest : List Int16} (hlen : frame.length = 2 * kSamplesPer16kHzChannel)
include hlen

theorem bandFrame_append_zero : bandFrame states (cellsOf (frame ++ rest)) 0 = bandFrame states (cellsOf frame) 0 := by
  funext band j
  refine ite_congr rfl (fun hj => ?_) fun _ => rfl
  rw [Nat.mul_zero, Nat.zero_add, lowBandOf_append_left hlen hj.2, highBandOf_append_left hlen hj.2]

theorem bandFrame_append_succ (t : ℕ) : bandFrame states (cellsOf (frame ++ rest)) (t + 1) =
    bandFrame (analysed states (cellsOf frame) kSamplesPer16kHzChannel) (cellsOf rest) t := by
  funext band j
  refine ite_congr rfl (fun _ => ?_) fun _ => rfl
  rw [Nat.mul_succ, Nat.add_comm (kSamplesPer16kHzChannel * t), Nat.add_assoc, lowBandOf_append_right hlen,
    highBandOf_append_right hlen]

/-- The bands of a frame and of the rest. -/
theorem bandFrames_append (n : ℕ) : bandFrames states (frame ++ rest) (n + 1) =
    bandFrame states (cellsOf frame) 0 ::
      bandFrames (analysed states (cellsOf frame) kSamplesPer16kHzChannel) rest n := by
  rw [bandFrames, List.range_succ_eq_map, List.map_cons, List.map_map, bandFrame_append_zero hlen, bandFrames]
  congr 1
  exact List.map_congr_left fun t _ => bandFrame_append_succ hlen t

end Frames

/-- **A run of a channel**: its whole signal is split, its frames go through the gain control and the noise suppression,
and the whole bands are merged. -/
theorem outputs_call_eq (hs : s.filter = some c) (datas : List (ℕ → Int16)) :
    streamOf (Runs.outputs (Strip.call layout32) s datas) =
      let ys := Runs.outputs (fun s x => process V layout32 s x) (s.gain, s.ns)
        (bandFrames c.whole.analysis (streamOf datas) datas.length)
      fullSignal c.whole.synthesis (rowsOf 0 ys) (rowsOf 1 ys) := by
  induction datas generalizing s c with
  | nil => rfl
  | cons data datas ih =>
      obtain ⟨p, hp⟩ : ∃ p, p = process V layout32 (s.gain, s.ns)
        (bandFrame c.whole.analysis (cellsOf (readCells data 0 kSamplesPer32kHzChannel)) 0) := ⟨_, rfl⟩
      obtain ⟨hout, c', hfilter, hanalysis, hsynthesis, hstate⟩ := call_eq hs data rfl hp
      have hframe : (readCells data 0 kSamplesPer32kHzChannel).length = 2 * kSamplesPer16kHzChannel :=
        length_readCells ..
      have hstream : streamOf (data :: datas) = readCells data 0 kSamplesPer32kHzChannel ++ streamOf datas := rfl
      have hrest := ih hfilter
      rw [hanalysis, hsynthesis, hstate] at hrest
      rw [hstream, List.length_cons, bandFrames_append hframe]
      simp only [Runs.outputs, ← hp]
      rw [streamOf, List.flatMap_cons, ← streamOf, hrest, hout]
      simp only [rowsOf, List.flatMap_cons]
      rw [fullSignal_append (n := kSamplesPer16kHzChannel) (length_readCells ..) (length_readCells ..)]
      have hcells : ∀ band, ∀ i < kSamplesPer16kHzChannel,
          p.1 band i = cellsOf (readCells (p.1 band) 0 kSamplesPer16kHzChannel) i :=
        fun band i hi => (cellsOf_readCells _ hi).symm
      rw [synthesised_congr (hcells 0) (hcells 1)]
      congr 1
      rw [fullSignal, length_readCells]
      exact List.map_congr_left fun k hk => fullBandOf_congr (hcells 0) (hcells 1) (List.mem_range.mp hk)

/-- Bands that come back unchanged. -/
theorem rowsOf_outputs [ExactHalves F] (hkeep : ∀ handle x n k row, x k = some row → (V.nsProcess handle x n).2 k = row)
    (ns : V.Ns) (xs : List (ℕ → ℕ → Int16)) {band : ℕ} (hband : band < 2) :
    rowsOf band (Runs.outputs (fun s x => process V layout32 s x) (none, ns) xs) = rowsOf band xs := by
  induction xs generalizing ns with
  | nil => rfl
  | cons x xs ih =>
      have hrow : (process V layout32 (none, ns) x).1 band = x band := by
        unfold process
        funext j
        simp only
        rw [hkeep _ _ _ band (fun j => shortToFloat (x band j)) (if_pos hband)]
        exact floatS16ToS16_shortToFloat _
      rw [rowsOf, Runs.outputs, List.flatMap_cons, hrow]
      exact congrArg (_ ++ ·) (ih _)

end Strip

/-- A table that is made of tables. -/
theorem flatMap_range_map {α : Type*} (f : ℕ → α) (w n : ℕ) :
    ((List.range n).flatMap fun t => (List.range w).map fun j => f (w * t + j)) = (List.range (w * n)).map f := by
  induction n with
  | zero => simp
  | succ n ih =>
      rw [List.range_succ, List.flatMap_append, ih, Nat.mul_succ, List.range_add, List.map_append, List.map_map]
      simp [Function.comp_def]

theorem rowsOf_bandFrames (states : Branches) {x : List Int16} {n : ℕ}
    (hx : x.length = 2 * (kSamplesPer16kHzChannel * n)) :
    rowsOf 0 (bandFrames states x n) = lowSignal states x ∧ rowsOf 1 (bandFrames states x n) = highSignal states x := by
  have hcell : ∀ {j}, j ∈ List.range kSamplesPer16kHzChannel → 0 + j < kSamplesPer16kHzChannel := fun {j} hj => by
    rw [Nat.zero_add]
    exact List.mem_range.mp hj
  rw [lowSignal, highSignal, hx, Nat.mul_div_cancel_left _ (by decide), ← flatMap_range_map, ← flatMap_range_map]
  simp only [rowsOf, bandFrames, List.flatMap_map]
  refine ⟨List.flatMap_congr fun t _ => List.map_congr_left fun j hj => ?_,
    List.flatMap_congr fun t _ => List.map_congr_left fun j hj => ?_⟩
  · exact (if_pos ⟨by decide, hcell hj⟩).trans (by rw [if_pos rfl, Nat.zero_add])
  · exact (if_pos ⟨by decide, hcell hj⟩).trans (by rw [if_neg Nat.one_ne_zero, Nat.zero_add])

/-! ## Runs at 32000 Hz -/

variable [ExactHalves F]

section Runs32

variable {V : NsVendor F} {R : Resampler} {junk : ℕ → Garbage} {nsMode channels : ℤ} {doAgc : Bool}
  {m₀ m : Apm F (V.withFilter R junk)} {calls : Calls}

/-- A run of a module is one of a strip on every channel. -/
theorem captureStream_strip32 (hV : V.TenMs) (hagc : V.toVendor.AgcOwn) (hfixed : V.FixedCreate) (hpos : 0 < channels)
    (hnew : m₀.Constructed) (hinit : m₀.init calls (.ns 32000 nsMode 320 channels doAgc) = (.ok true, m)) :
    ∃ s : Strip (V.withFilter R junk) (channelwise V R junk), s.gain.isSome = doAgc ∧ s.filter = some (.new R) ∧
      ∀ datas : List (ℕ → Int16), ∃ outs, m.captureStream 320 channels datas = some outs ∧ ∀ i < channels.toNat,
        outs.map (channelOf channels.toNat i) =
          Runs.outputs (Strip.call layout32) s (datas.map (channelOf channels.toNat i)) := by
  obtain ⟨s, hs⟩ := exists_start (W := channelwise V R junk) hinit (by omega)
  have hsupported : Supported 32000 320 := ⟨Or.inr (Or.inr (Or.inl rfl)), rfl⟩
  have hstrips := isStrips_init hV.withFilter hfixed.withFilter hsupported hnew hinit hs
  exact ⟨s, hs.isSome, hs.filter.trans (if_pos (Or.inl rfl)), fun datas =>
    captureStream_strip hV.withFilter hagc.withFilter hstrips (show (320 : ℤ).toNat = _ from rfl) datas⟩

end Runs32

/-- **The module splits a channel once and merges it once.** At 32000 Hz, from an init call on: the bands of the whole
signal of a channel go through gain control and noise suppression frame by frame, from the same start on every channel
and in every run, and what comes back is the full band of the whole bands. No call fails, and nothing depends on memory
that the filter does not initialise. -/
theorem capture_bands (V : NsVendor F) (R : Resampler) (junk : ℕ → Garbage) (hV : V.TenMs) (hagc : V.toVendor.AgcOwn)
    (hfixed : V.FixedCreate) (nsMode channels : ℤ) (doAgc : Bool) (hpos : 0 < channels)
    (m₀ m : Apm F (V.withFilter R junk)) (calls : Calls) (hnew : m₀.Constructed)
    (hinit : m₀.init calls (.ns 32000 nsMode 320 channels doAgc) = (.ok true, m)) :
    ∃ start : Option (V.Agc × ℤ) × V.Ns, start.1.isSome = doAgc ∧ ∀ datas : List (ℕ → Int16), ∃ outs,
      m.captureStream 320 channels datas = some outs ∧ ∀ i < channels.toNat,
        let x := streamOf (datas.map (channelOf channels.toNat i))
        let ys := Runs.outputs (fun s x => process V layout32 s x) start (bandFrames .zero x datas.length)
        streamOf (outs.map (channelOf channels.toNat i)) = fullSignal .zero (rowsOf 0 ys) (rowsOf 1 ys) := by
  obtain ⟨s, hgain, hfilter, hrun⟩ := captureStream_strip32 hV hagc hfixed hpos hnew hinit
  refine ⟨(s.gain, s.ns), hgain, fun datas => ?_⟩
  obtain ⟨outs, hstream, houts⟩ := hrun datas
  refine ⟨outs, hstream, fun i hi => ?_⟩
  rw [houts i hi, outputs_call_eq hfilter, List.length_map]
  rfl

/-- A resampler for runs at 32000 Hz, where it is not called. -/
def idleResampler : Resampler := ⟨Unit, fun _ _ => (), fun _ _ => ((), fun _ => 0)⟩

/-- Memory full of ones. -/
def onesGarbage : Garbage := ⟨fun _ _ => ⟨fun _ => 1, fun _ => 1, fun _ => 1, fun _ => 1⟩, fun _ => 1⟩

/-- A new object, with this splitting filter. -/
noncomputable def filterApm : Apm ℝ (delayNs.withFilter idleResampler fun _ => onesGarbage) :=
  { agcHandles := [], rnnoiseHandles := [], captureLevel := [], captureBuffer := none, frequency := 0, channels := 0,
    doAgc := false, rnnBuf := fun _ => 0, nsHandles := [], nsMode := 0 }

theorem constructed_filterApm : filterApm.Constructed := ⟨rfl, rfl, rfl, rfl, rfl, rfl⟩

/-- Two channels, with gain control. -/
theorem capture_bands_two : ∃ start : Option (delayNs.Agc × ℤ) × delayNs.Ns, start.1.isSome = true ∧
    ∀ datas : List (ℕ → Int16), ∃ outs,
      (filterApm.init .all (.ns 32000 0 320 2 true)).2.captureStream 320 2 datas = some outs ∧ ∀ i < 2,
        let x := streamOf (datas.map (channelOf 2 i))
        let ys := Runs.outputs (fun s x => process delayNs layout32 s x) start (bandFrames .zero x datas.length)
        streamOf (outs.map (channelOf 2 i)) = fullSignal .zero (rowsOf 0 ys) (rowsOf 1 ys) :=
  capture_bands delayNs idleResampler (fun _ => onesGarbage) tenMs_delayNs agcOwn_delayNs fixedHandles_delayNs 0 2 true
    (by decide) filterApm _ .all constructed_filterApm rfl

/-- **Where gain control and noise suppression change nothing, the module only filters and rounds.** At 32000 Hz, without
gain control and with a noise suppression that leaves the bands alone, what comes back on a channel is the full band of
the two bands of its whole signal; where these are not clipped, that is the output of the all-pass filter
`qmfTransfer` on every other sample, clipped, up to `13`. -/
theorem capture_near (V : NsVendor F) (R : Resampler) (junk : ℕ → Garbage) (hV : V.TenMs) (hagc : V.toVendor.AgcOwn)
    (hfixed : V.FixedCreate) (hkeep : ∀ handle x n k row, x k = some row → (V.nsProcess handle x n).2 k = row)
    (nsMode channels : ℤ) (hpos : 0 < channels) (m₀ m : Apm F (V.withFilter R junk)) (calls : Calls)
    (hnew : m₀.Constructed) (hinit : m₀.init calls (.ns 32000 nsMode 320 channels false) = (.ok true, m))
    (datas : List (ℕ → Int16)) :
    ∃ outs, m.captureStream 320 channels datas = some outs ∧ ∀ i < channels.toNat,
      let x := streamOf (datas.map (channelOf channels.toNat i))
      let y := streamOf (outs.map (channelOf channels.toNat i))
      y = fullSignal .zero (lowSignal .zero x) (highSignal .zero x) ∧
        ((∀ j, 2 * j < x.length → Unclipped (cellsOf x) j) → ∀ k < x.length,
          |((cellsOf y k).toInt : ℝ) -
            clamp (PowerSeries.coeff (k / 2) (qmfTransfer * Allpass.signal (samplesOf (cellsOf x) (k % 2))))| ≤
              (13 : ℤ)) := by
  obtain ⟨s, hgain, hfilter, hrun⟩ := captureStream_strip32 hV hagc hfixed hpos hnew hinit
  have hnone : s.gain = none := Option.not_isSome_iff_eq_none.mp (by rw [hgain]; exact Bool.false_ne_true)
  obtain ⟨outs, hstream, houts⟩ := hrun datas
  refine ⟨outs, hstream, fun i hi => ?_⟩
  have hlen := length_streamOf (datas.map (channelOf channels.toNat i))
  obtain ⟨hlow, hhigh⟩ := rowsOf_bandFrames .zero hlen
  have hfull : streamOf (outs.map (channelOf channels.toNat i)) =
      fullSignal .zero (lowSignal .zero (streamOf (datas.map (channelOf channels.toNat i))))
        (highSignal .zero (streamOf (datas.map (channelOf channels.toNat i)))) := by
    rw [houts i hi, outputs_call_eq hfilter, hnone, ← hlow, ← hhigh]
    simp only [rowsOf_outputs hkeep s.ns _ Nat.zero_lt_two, rowsOf_outputs hkeep s.ns _ Nat.one_lt_two]
    rfl
  refine ⟨hfull, fun hclip k hk => ?_⟩
  rw [hfull]
  exact (fullSignal_near hlen fun j hj => hclip j (by omega)).2 k (by omega)

/-- The right one of two quiet channels. -/
theorem capture_near_right : ∃ outs,
    (filterApm.init .all (.ns 32000 0 320 2 false)).2.captureStream 320 2 [fun _ => 7] = some outs ∧ ∀ k < 320,
      |((cellsOf (streamOf (outs.map (channelOf 2 1))) k).toInt : ℝ) -
        clamp (PowerSeries.coeff (k / 2) (qmfTransfer * Allpass.signal (samplesOf
          (cellsOf (readCells (fun _ => 7) 0 kSamplesPer32kHzChannel)) (k % 2))))| ≤ (13 : ℤ) := by
  obtain ⟨outs, hstream, houts⟩ := capture_near delayNs idleResampler (fun _ => onesGarbage) tenMs_delayNs agcOwn_delayNs
    fixedHandles_delayNs (fun _ x _ k row hrow => by simp [delayNs, plainNs, hrow]) 0 2 (by decide) filterApm _ .all
    constructed_filterApm rfl [fun _ => 7]
  have hstreamOf : streamOf ([fun _ => (7 : Int16)].map (channelOf (2 : ℤ).toNat 1)) =
      readCells (fun _ => 7) 0 kSamplesPer32kHzChannel := List.append_nil _
  have hnear := (houts 1 (by decide)).2
  simp only [hstreamOf, length_readCells] at hnear
  refine ⟨outs, hstream, hnear fun j _ => unclipped_of_quiet (fun k => ?_) j⟩
  by_cases hk : k < kSamplesPer32kHzChannel
  · rw [cellsOf_readCells _ hk]
    decide
  · rw [cellsOf, List.getD_eq_default _ _ (by rw [length_readCells]; omega)]
    decide

end AudioProcess
