import AudioProcess.Apm.Bounds

/-!
# What the module owns (`WebRtc_AMP_Port/libapm/src/apm_ns.cpp`)

The init functions and the destructor once more, as far as they create and release things. A handle is the
number of things created before it; what a handle holds is left out.

* `Resource`: the handles, the `AudioBuffer`s and the arrays of pointers;
* `Members`: the members of `APM_NS` that own something, with everything that was created so far;
* `Outcomes`: which third-party calls succeed, call by call;
* `Members.initNsModule`, `Members.initRnnoiseModule`, `Members.released`: what the destructor releases;
* `OwnerCall`, `afterInit`, `ownerStep`: a call on an object;
* `init_sameShape`, `process_sameShape`: each call does to the owners what it does in `Apm`;
  **`run_sameShape`**: every run of `Apm` is one of its owners.
-/

namespace AudioProcess

open CFloat CLoop CInt

/-! ## The members -/

/-- The kinds of things that the module creates: handles of `WebRtcNs_Create`, `WebRtcAgc_Create` and
`rnnoise_create`, `AudioBuffer`s, what the constructor of an `AudioBuffer` allocates, and arrays of pointers. -/
inductive ResourceKind
  | ns
  | agc
  | rnnoise
  | audioBuffer
  | audioBufferData
  | channelsPtr
  deriving DecidableEq

/-- Something created; `id` tells those of one kind apart. -/
structure Resource where
  kind : ResourceKind
  id : ℕ
  deriving DecidableEq

/-- The owning members of `APM_NS`, with all that the module has created. -/
structure Members where
  nsHandles : List ℕ
  agcHandles : List ℕ
  rnnoiseHandles : List ℕ
  captureBuffer : Option ℕ
  channelsPtr : Option ℕ
  created : List Resource

/-- Which third-party calls succeed, for each channel, and whether the two `new` expressions find memory. -/
structure Outcomes where
  agcCreate : ℕ → Bool
  agcInit : ℕ → Bool
  agcSetConfig : ℕ → Bool
  nsCreate : ℕ → Bool
  nsInit : ℕ → Bool
  nsSetPolicy : ℕ → Bool
  newBuffer : Bool
  newChannelsPtr : Bool

namespace Members

/-- A new object. -/
def new : Members := ⟨[], [], [], none, none, []⟩

/-- The next handle. -/
def next (m : Members) : ℕ := m.created.length

/-- Something of kind `k` is created. -/
def create (m : Members) (k : ResourceKind) : Members := { m with created := m.created ++ [⟨k, m.next⟩] }

/-! ## Initialisation -/

/-- `m_agcHandles.push_back(handle)`. -/
def pushAgc (handle : ℕ) (m : Members) : Members := { m with agcHandles := m.agcHandles ++ [handle] }

/-- `m_nsHandles.push_back(handle)`. -/
def pushNs (handle : ℕ) (m : Members) : Members := { m with nsHandles := m.nsHandles ++ [handle] }

/-- `m_rnnoiseHandles.push_back(handle)`. -/
def pushRnnoise (handle : ℕ) (m : Members) : Members := { m with rnnoiseHandles := m.rnnoiseHandles ++ [handle] }

/-- A handle of kind `k` is created, set up by two more calls, and stored by `push`; each of the three calls may fail.
The result says whether the init function goes on. -/
def addHandle (k : ResourceKind) (create init configure : Bool) (push : ℕ → Members → Members) (m : Members) :
    Bool × Members :=
  if ¬ create then (false, m)
  else
    let handle := m.next
    let m := m.create k
    if ¬ init then (false, m)
    else if ¬ configure then (false, m)
    else (true, push handle m)

/-- The gain control of channel `i`, for both init functions. -/
def addAgc (o : Outcomes) (i : ℕ) : Members → Bool × Members :=
  addHandle .agc (o.agcCreate i) (o.agcInit i) (o.agcSetConfig i) pushAgc

/-- The noise suppression of channel `i`. -/
def addNs (o : Outcomes) (i : ℕ) : Members → Bool × Members :=
  addHandle .ns (o.nsCreate i) (o.nsInit i) (o.nsSetPolicy i) pushNs

/-- The denoiser of a channel. -/
def addRnnoise : Members → Bool × Members := addHandle .rnnoise true true true pushRnnoise

/-- One turn of either loop over the channels: the gain control, if any, and then `add`. -/
def initChannel (o : Outcomes) (doAgc : Bool) (add : ℕ → Members → Bool × Members) (i : ℕ) (r : Bool × Members) :
    Bool × Members :=
  if ¬ r.1 then r
  else
    let r := if doAgc then r.2.addAgc o i else (true, r.2)
    if ¬ r.1 then r else add i r.2

/-- How `new AudioBuffer` ends: the errors of `newAudioBuffer`. -/
def newAudioBuffer (alloc : Bool) (frames channels : ℤ) : Except Abort Unit :=
  if frames * channels > intMax ∨ frames * channels < intMin ∨ channels * kMaxNumBands > intMax ∨
      channels * kMaxNumBands < intMin then .error .undefined
  else if frames * channels < 0 ∨ channels < 0 ∨ alloc = false then .error .threw
  else .ok ()

/-- `capture_buffer = new AudioBuffer(…)`, when it succeeds. -/
def setBuffer (m : Members) : Members :=
  let buffer := m.next
  { m with
    captureBuffer := some buffer
    created := m.created ++ [⟨.audioBuffer, buffer⟩, ⟨.audioBufferData, buffer⟩] }

/-- `channels_ptr_i = new short*[…]`, when it succeeds. -/
def setChannelsPtr (m : Members) : Members :=
  let array := m.next
  let m := m.create .channelsPtr
  { m with channelsPtr := some array }

/-- The vectors that `initNsModule` clears. -/
def clear (doAgc : Bool) (m : Members) : Members :=
  let m := { m with nsHandles := [] }
  if doAgc then { m with agcHandles := [] } else m

/-- `initNsModule`. -/
def initNsModule (o : Outcomes) (m : Members) (inputFrames inputChannels : ℤ) (doAgc : Bool) :
    Except Abort Bool × Members :=
  if inputChannels < 0 then (.ok false, m)
  else
    let r := forLoop 0 inputChannels.toNat (initChannel o doAgc (addNs o)) (true, m.clear doAgc)
    if ¬ r.1 then (.ok false, r.2)
    else
      match newAudioBuffer o.newBuffer inputFrames inputChannels with
      | .error e => (.error e, r.2)
      | .ok () =>
          let m := r.2.setBuffer
          if ¬ o.newChannelsPtr then (.error .threw, m) else (.ok true, m.setChannelsPtr)

/-- `initRnnoiseModule` up to its loop: a capture buffer if there is none. -/
def rnnoiseBuffer (o : Outcomes) (m : Members) (inputFrames inputChannels : ℤ) : Except Abort Members :=
  if m.captureBuffer.isSome then .ok m
  else (newAudioBuffer o.newBuffer inputFrames inputChannels).map fun _ => m.setBuffer

/-- `initRnnoiseModule`. -/
def initRnnoiseModule (o : Outcomes) (m : Members) (frequency : ℕ) (inputFrames inputChannels : ℤ) (doAgc : Bool) :
    Except Abort Bool × Members :=
  if frequency ≠ 48000 ∨ inputFrames ≠ 480 then (.ok false, m)
  else
    match m.rnnoiseBuffer o inputFrames inputChannels with
    | .error e => (.error e, m)
    | .ok m =>
        let r := forLoop 0 inputChannels.toNat (initChannel o doAgc fun _ => addRnnoise) (true, m)
        (.ok r.1, r.2)

/-- An init call. -/
def init (o : Outcomes) (m : Members) : InitCall → Except Abort Bool × Members
  | .ns _ _ inputFrames inputChannels doAgc => m.initNsModule o inputFrames inputChannels doAgc
  | .rnnoise frequency inputFrames inputChannels doAgc =>
      m.initRnnoiseModule o frequency inputFrames inputChannels doAgc

/-! ## Destruction -/

/-- What `~APM_NS` releases, in order; nothing is released before. `capture_buffer` is a `void *`: its `delete` gives
the memory of the `AudioBuffer` back and does not run `~AudioBuffer`, which would release the rest. -/
def released (m : Members) : List Resource :=
  m.nsHandles.map (Resource.mk .ns) ++ m.agcHandles.map (Resource.mk .agc) ++
    m.rnnoiseHandles.map (Resource.mk .rnnoise) ++ m.captureBuffer.toList.map (Resource.mk .audioBuffer) ++
    m.channelsPtr.toList.map (Resource.mk .channelsPtr)

end Members

/-! ## Runs -/

/-- A call on an object: of an init function, or of a process function, whose behaviour is `defined` or not. -/
inductive OwnerCall
  | init (o : Outcomes) (a : InitCall)
  | process (defined : Bool)

/-- The object after an init call that ends in this way; `none` after undefined behaviour. An exception leaves the
object as it is by then. -/
def afterInit : Except Abort Bool × Members → Option Members
  | (.error .undefined, _) => none
  | (_, m) => some m

/-- The object after a call. A process call changes no owner. -/
def ownerStep (s : Option Members) : OwnerCall → Option Members
  | .init o a => s.bind fun m => afterInit (m.init o a)
  | .process defined => if defined then s else none

/-! ## The same calls in `Apm` -/

section Shape

variable {F : Type} {V : NsVendor F}

/-- The calls of an init function that succeed. -/
def Outcomes.calls (o : Outcomes) : Calls where
  agc i := o.agcCreate i && o.agcInit i && o.agcSetConfig i
  ns i := o.nsCreate i && o.nsInit i && o.nsSetPolicy i
  alloc := o.newBuffer

/-- The third-party code has no failures of its own. -/
structure NsVendor.Total (V : NsVendor F) : Prop where
  agc : ∀ frequency i, (createAgc V.toVendor frequency i).isSome
  ns : ∀ frequency nsMode i, (createNs V .all frequency nsMode i).isSome

/-- An object and the members of it that own something. -/
structure SameShape (m : Apm F V) (s : Members) : Prop where
  ns : m.nsHandles.length = s.nsHandles.length
  agc : m.agcHandles.length = s.agcHandles.length
  rnnoise : m.rnnoiseHandles.length = s.rnnoiseHandles.length
  buffer : m.captureBuffer.isSome = s.captureBuffer.isSome

variable {o : Outcomes} {m m' : Apm F V} {s : Members} {frequency i n : ℕ} {nsMode : ℤ} {doAgc : Bool}

/-- A step in both models; the first gives no object where it fails, and the object is then as before. -/
def SameStep (m : Apm F V) (x : Option (Apm F V)) (t : Bool × Members) : Prop :=
  t.1 = x.isSome ∧ SameShape (x.getD m) t.2

theorem SameShape.create (h : SameShape m s) (k : ResourceKind) : SameShape m (s.create k) :=
  ⟨h.ns, h.agc, h.rnnoise, h.buffer⟩

/-- A handle is made where all three calls succeed. -/
theorem addHandle_sameStep (k : ResourceKind) (create init configure : Bool) {push : ℕ → Members → Members}
    (h : SameShape m s) (hpush : ∀ handle t, SameShape m t → SameShape m' (push handle t)) :
    SameStep m (if create && init && configure then some m' else none)
      (s.addHandle k create init configure push) := by
  have hcreated := h.create k
  cases create <;> cases init <;> cases configure <;>
    first | exact ⟨rfl, h⟩ | exact ⟨rfl, hcreated⟩ | exact ⟨rfl, hpush _ _ hcreated⟩

/-- The gain control of a channel, where there is gain control. -/
theorem addAgc_sameStep (hV : V.Total) (h : SameShape m s) (frequency i : ℕ) (doAgc : Bool) :
    SameStep m (if doAgc then addAgc o.calls frequency i m else some m)
      (if doAgc then s.addAgc o i else (true, s)) := by
  cases doAgc with
  | false => exact ⟨rfl, h⟩
  | true =>
      obtain ⟨handle, hhandle⟩ := Option.isSome_iff_exists.mp (hV.agc frequency i)
      rw [if_pos rfl, if_pos rfl, addAgc, hhandle, Option.map_some]
      refine addHandle_sameStep _ _ _ _ h fun _ t ht => ⟨ht.ns, ?_, ht.rnnoise, ht.buffer⟩
      simp [Members.pushAgc, ht.agc]

theorem addNs_sameStep (hV : V.Total) (h : SameShape m s) (frequency : ℕ) (nsMode : ℤ) (i : ℕ) :
    SameStep m ((createNs V o.calls frequency nsMode i).map fun handle =>
      { m with nsHandles := m.nsHandles ++ [handle] }) (s.addNs o i) := by
  obtain ⟨handle, hhandle⟩ := Option.isSome_iff_exists.mp (hV.ns frequency nsMode i)
  have hcreate : createNs V o.calls frequency nsMode i = if o.calls.ns i then some handle else none := by
    rw [← hhandle]
    rfl
  rw [hcreate, apply_ite (Option.map _), Option.map_some, Option.map_none]
  refine addHandle_sameStep _ _ _ _ h fun _ t ht => ⟨?_, ht.agc, ht.rnnoise, ht.buffer⟩
  simp [Members.pushNs, ht.ns]

theorem addRnnoise_sameStep (h : SameShape m s) (handle : V.Rnn) :
    SameStep m (some { m with rnnoiseHandles := m.rnnoiseHandles ++ [handle] }) s.addRnnoise := by
  refine addHandle_sameStep .rnnoise true true true h fun _ t ht => ⟨ht.ns, ht.agc, ?_, ht.buffer⟩
  simp [Members.pushRnnoise, ht.rnnoise]

/-- A turn of a loop in both models. -/
def SameTurn (r : Bool × Apm F V) (t : Bool × Members) : Prop := t.1 = r.1 ∧ SameShape r.2 t.2

/-- Both loops over the channels take their turns in the same way. -/
theorem initChannel_sameTurn (hV : V.Total) (o : Outcomes) (frequency i : ℕ) (doAgc : Bool)
    {f : Apm F V → Option (Apm F V)} (add : ℕ → Members → Bool × Members)
    (hadd : ∀ m s, SameShape m s → SameStep m (f m) (add i s)) {r : Bool × Apm F V} {t : Bool × Members}
    (h : SameTurn r t) :
    SameTurn (if ¬ r.1 then r else
        match if doAgc then addAgc o.calls frequency i r.2 else some r.2 with
        | none => (false, r.2)
        | some m => (f m).elim (false, m) (Prod.mk true))
      (Members.initChannel o doAgc add i t) := by
  obtain ⟨ok, m⟩ := r
  obtain ⟨ok', s⟩ := t
  obtain ⟨rfl, hs⟩ := h
  cases ok' with
  | false => exact ⟨rfl, hs⟩
  | true =>
      obtain ⟨hok, hshape⟩ := addAgc_sameStep (o := o) hV hs frequency i doAgc
      unfold Members.initChannel
      simp only [not_true_eq_false, if_false] at hok hshape ⊢
      rw [hok]
      cases hagc : if doAgc then addAgc o.calls frequency i m else some m with
      | none =>
          rw [hagc] at hok hshape
          exact ⟨hok, hshape⟩
      | some m₁ =>
          rw [hagc] at hshape
          obtain ⟨hok₁, hshape₁⟩ := hadd m₁ _ hshape
          rw [if_neg (by simp)]
          show SameTurn ((f m₁).elim (false, m₁) (Prod.mk true)) _
          cases hf : f m₁ with
          | none =>
              rw [hf] at hok₁ hshape₁
              exact ⟨hok₁, hshape₁⟩
          | some m₂ =>
              rw [hf] at hok₁ hshape₁
              exact ⟨hok₁, hshape₁⟩

theorem initNsChannel_sameTurn (hV : V.Total) (frequency : ℕ) (nsMode : ℤ) (doAgc : Bool) (i : ℕ)
    {r : Bool × Apm F V} {t : Bool × Members} (h : SameTurn r t) :
    SameTurn (initNsChannel o.calls frequency nsMode doAgc i r)
      (Members.initChannel o doAgc (Members.addNs o) i t) := by
  have hturn := initChannel_sameTurn hV o frequency i doAgc (Members.addNs o)
    (fun m s hs => addNs_sameStep hV hs frequency nsMode i) h
  unfold initNsChannel
  generalize (if doAgc then addAgc o.calls frequency i r.2 else some r.2) = x at hturn ⊢
  generalize createNs V o.calls frequency nsMode i = y at hturn ⊢
  cases x <;> cases y <;> exact hturn

theorem initRnnoiseChannel_sameTurn (hV : V.Total) (frequency : ℕ) (doAgc : Bool) (i : ℕ)
    {r : Bool × Apm F V} {t : Bool × Members} (h : SameTurn r t) :
    SameTurn (Apm.initRnnoiseChannel o.calls frequency doAgc i r)
      (Members.initChannel o doAgc (fun _ => Members.addRnnoise) i t) := by
  have hturn := initChannel_sameTurn hV o frequency i doAgc (fun _ => Members.addRnnoise)
    (fun m s hs => addRnnoise_sameStep hs (V.rnnoiseCreate i)) h
  unfold Apm.initRnnoiseChannel
  generalize (if doAgc then addAgc o.calls frequency i r.2 else some r.2) = x at hturn ⊢
  cases x <;> exact hturn

variable [CFloat F]

theorem newAudioBuffer_eq (V : Vendor) (alloc : Bool) (frames channels : ℤ) :
    (newAudioBuffer V alloc frames channels : Except Abort (AudioBuffer F V)) =
      (Members.newAudioBuffer alloc frames channels).map fun _ =>
        AudioBuffer.create V frames.toNat channels.toNat := by
  unfold newAudioBuffer Members.newAudioBuffer
  split_ifs <;> rfl

/-- The same answer, and objects of the same shape. -/
def SameCall (r : Except Abort Bool × Apm F V) (t : Except Abort Bool × Members) : Prop :=
  t.1 = r.1 ∧ SameShape r.2 t.2

theorem initNsModule_sameCall (hV : V.Total) (hptr : o.newChannelsPtr = true) (h : SameShape m s)
    (frequency : ℕ) (nsMode frames channels : ℤ) (doAgc : Bool) :
    SameCall (m.initNsModule o.calls frequency nsMode frames channels doAgc)
      (s.initNsModule o frames channels doAgc) := by
  unfold Members.initNsModule
  by_cases hneg : channels < 0
  · unfold Apm.initNsModule
    rw [if_pos hneg, if_pos hneg]
    exact ⟨rfl, h.ns, h.agc, h.rnnoise, h.buffer⟩
  · rw [if_neg hneg, initNsModule_eq (not_lt.mp hneg)]
    have hstart : SameTurn (true, m.startNs frequency nsMode channels doAgc) (true, s.clear doAgc) := by
      cases doAgc with
      | false => exact ⟨rfl, rfl, h.agc, h.rnnoise, h.buffer⟩
      | true => exact ⟨rfl, rfl, rfl, h.rnnoise, h.buffer⟩
    have hloop : SameTurn (forLoop 0 channels.toNat (initNsChannel o.calls frequency nsMode doAgc) _)
        (forLoop 0 channels.toNat (Members.initChannel o doAgc (Members.addNs o)) _) :=
      forLoop_rel SameTurn hstart fun i r t _ _ hr => initNsChannel_sameTurn hV frequency nsMode doAgc i hr
    simp only
    generalize forLoop 0 channels.toNat (initNsChannel o.calls frequency nsMode doAgc) _ = r at hloop ⊢
    generalize forLoop 0 channels.toNat (Members.initChannel o doAgc (Members.addNs o)) _ = t at hloop ⊢
    obtain ⟨ok, m'⟩ := r
    obtain ⟨ok', s'⟩ := t
    obtain ⟨rfl, hshape⟩ := hloop
    cases ok' with
    | false => exact ⟨rfl, hshape⟩
    | true =>
        have halloc : o.calls.alloc = o.newBuffer := rfl
        simp only [not_true_eq_false, if_false, newAudioBuffer_eq, halloc, hptr]
        cases Members.newAudioBuffer o.newBuffer frames channels with
        | error e => exact ⟨rfl, hshape⟩
        | ok u => exact ⟨rfl, hshape.ns, hshape.agc, hshape.rnnoise, rfl⟩

theorem initRnnoiseModule_sameCall (hV : V.Total) (h : SameShape m s) (frequency : ℕ) (frames channels : ℤ)
    (doAgc : Bool) : SameCall (m.initRnnoiseModule o.calls frequency frames channels doAgc)
      (s.initRnnoiseModule o frequency frames channels doAgc) := by
  unfold Members.initRnnoiseModule Apm.initRnnoiseModule
  split_ifs with hbad
  · exact ⟨rfl, h⟩
  · have hloop : ∀ (m₀ : Apm F V) (s₀ : Members), SameShape m₀ s₀ →
        SameTurn (forLoop 0 channels.toNat (Apm.initRnnoiseChannel o.calls frequency doAgc) (true, m₀))
          (forLoop 0 channels.toNat (Members.initChannel o doAgc fun _ => Members.addRnnoise) (true, s₀)) :=
      fun m₀ s₀ hs => forLoop_rel SameTurn ⟨rfl, hs⟩ fun i r t _ _ hr =>
        initRnnoiseChannel_sameTurn hV frequency doAgc i hr
    unfold Apm.rnnoiseBuffer Members.rnnoiseBuffer
    cases hb : m.captureBuffer with
    | some b =>
        have hbuffer : s.captureBuffer.isSome = true := by
          rw [← h.buffer, hb]
          rfl
        obtain ⟨hok, hshape⟩ := hloop { m with
            captureBuffer := some b, frequency := frequency, channels := channels, doAgc := doAgc } s
          ⟨h.ns, h.agc, h.rnnoise, hbuffer.symm⟩
        rw [if_pos hbuffer]
        exact ⟨congrArg Except.ok hok, hshape⟩
    | none =>
        have hbuffer : ¬ s.captureBuffer.isSome = true := by
          rw [← h.buffer, hb]
          exact Bool.false_ne_true
        have halloc : o.calls.alloc = o.newBuffer := rfl
        rw [if_neg hbuffer]
        simp only [newAudioBuffer_eq, halloc]
        cases Members.newAudioBuffer o.newBuffer frames channels with
        | error e => exact ⟨rfl, h⟩
        | ok u =>
            obtain ⟨hok, hshape⟩ := hloop { m with
                captureBuffer := some (AudioBuffer.create V.toVendor frames.toNat channels.toNat)
                frequency := frequency, channels := channels, doAgc := doAgc } s.setBuffer
              ⟨h.ns, h.agc, h.rnnoise, rfl⟩
            exact ⟨congrArg Except.ok hok, hshape⟩

/-- An init call does the same in both models. -/
theorem init_sameShape (hV : V.Total) (hptr : o.newChannelsPtr = true) (h : SameShape m s) (a : InitCall) :
    SameCall (m.init o.calls a) (s.init o a) := by
  cases a with
  | ns frequency nsMode frames channels doAgc =>
      exact initNsModule_sameCall hV hptr h frequency nsMode frames channels doAgc
  | rnnoise frequency frames channels doAgc => exact initRnnoiseModule_sameCall hV h frequency frames channels doAgc

/-! ### Process calls -/

omit [CFloat F] in
/-- How many handles the members of `ApmNs` hold. -/
def ApmNs.handles {V : Vendor} (m : ApmNs F V) : ℕ × ℕ := (m.agcHandles.length, m.rnnoiseHandles.length)

omit [CFloat F] in
theorem handles_of_sizes {V : Vendor} {t t' : Turn F V} (h : t'.sizes = t.sizes) : t'.apm.handles = t.apm.handles :=
  Prod.ext (congrArg TurnSizes.agcHandles h) (congrArg TurnSizes.rnnoiseHandles h)

/-- A turn of `processCaptureStream` keeps the number of handles. -/
theorem captureChannel_handles {ch : ℕ} {t t' : NsTurn F V} (h : captureChannel ch t = some t') :
    t'.nsHandles.length = t.nsHandles.length ∧ t'.apm.handles = t.apm.handles := by
  rw [captureChannel_eq] at h
  obtain ⟨turn, hagc, h⟩ := Option.bind_eq_some_iff.mp h
  have hturn : turn.apm.handles = t.apm.handles := by
    split_ifs at hagc
    · exact handles_of_sizes ((agcChannel_defined rfl ch).of_eq_some turn hagc)
    · rw [Option.some.inj hagc]
  unfold nsChannel at h
  obtain ⟨handle, -, h⟩ := Option.bind_eq_some_iff.mp h
  obtain ⟨b, -, h⟩ := Option.bind_eq_some_iff.mp h
  obtain ⟨band, -, h⟩ := Option.bind_eq_some_iff.mp h
  split_ifs at h
  obtain ⟨b', -, h⟩ := Option.bind_eq_some_iff.mp h
  obtain rfl := Option.some.inj h
  exact ⟨List.length_set, hturn⟩

omit [CFloat F] in
/-- The members with a buffer and as many handles as before. -/
theorem SameShape.processed (h : SameShape m s) (hbuffer : m.captureBuffer.isSome) {apm : ApmNs F V.toVendor}
    (hhandles : apm.handles = m.toApmNs.handles) {handles : List V.Ns} (hns : handles.length = m.nsHandles.length)
    (b : AudioBuffer F V.toVendor) :
    SameShape { m with toApmNs := { apm with captureBuffer := some b }, nsHandles := handles } s where
  ns := hns.trans h.ns
  agc := (congrArg Prod.fst hhandles).trans h.agc
  rnnoise := (congrArg Prod.snd hhandles).trans h.rnnoise
  buffer := hbuffer.symm.trans h.buffer

theorem processCapture_sameShape {α : Type} {load : α → Int16} {store : Int16 → α} {data : ℕ → α}
    {samples channels : ℤ} {r : (ℕ → α) × Apm F V} (h : SameShape m s)
    (hr : m.processCapture load store data samples channels = some r) : SameShape r.2 s := by
  rw [Apm.processCapture_eq] at hr
  obtain ⟨b, hbuffer, hr⟩ := Option.bind_eq_some_iff.mp hr
  obtain ⟨b₁, -, hr⟩ := Option.bind_eq_some_iff.mp hr
  obtain ⟨b₂, -, hr⟩ := Option.bind_eq_some_iff.mp hr
  obtain ⟨t, hloop, hr⟩ := Option.bind_eq_some_iff.mp hr
  obtain ⟨b₃, -, hr⟩ := Option.bind_eq_some_iff.mp hr
  obtain ⟨r', -, hr⟩ := Option.bind_eq_some_iff.mp hr
  obtain rfl := Option.some.inj hr
  obtain ⟨hns, hhandles⟩ : t.nsHandles.length = m.nsHandles.length ∧ t.apm.handles = m.toApmNs.handles := by
    refine forLoopM_inv (fun t : NsTurn F V => t.nsHandles.length = m.nsHandles.length ∧
      t.apm.handles = m.toApmNs.handles) ⟨rfl, rfl⟩ (fun ch t t' ht hturn => ?_) hloop
    have hkeep := captureChannel_handles hturn
    exact ⟨hkeep.1.trans ht.1, hkeep.2.trans ht.2⟩
  exact h.processed (by rw [hbuffer]; rfl) hhandles hns r'.1

theorem processUseRnnoise_sameShape {rnn : FrameProc F V.toVendor} {data : ℕ → Int16} {samples channels : ℤ}
    {r : (ℕ → Int16) × Apm F V} (h : SameShape m s) (hr : m.processUseRnnoise rnn data samples channels = some r) :
    SameShape r.2 s := by
  unfold Apm.processUseRnnoise at hr
  obtain ⟨⟨data', apm⟩, hcall, hr⟩ := Option.bind_eq_some_iff.mp hr
  obtain rfl := Option.some.inj hr
  rw [processUseRnnoise_bind] at hcall
  obtain ⟨b, hbuffer, hcall⟩ := Option.bind_eq_some_iff.mp hcall
  obtain ⟨b₁, -, hcall⟩ := Option.bind_eq_some_iff.mp hcall
  obtain ⟨b₂, -, hcall⟩ := Option.bind_eq_some_iff.mp hcall
  obtain ⟨t, hloop, hcall⟩ := Option.bind_eq_some_iff.mp hcall
  obtain ⟨b₃, -, hcall⟩ := Option.bind_eq_some_iff.mp hcall
  obtain ⟨r', -, hcall⟩ := Option.bind_eq_some_iff.mp hcall
  obtain ⟨-, rfl⟩ := Prod.mk.inj (Option.some.inj hcall)
  have hhandles : t.apm.handles = m.toApmNs.handles := by
    refine forLoopM_inv (fun t : Turn F V.toVendor => t.apm.handles = m.toApmNs.handles) rfl
      (fun ch t t' ht hturn => ?_) hloop
    exact (handles_of_sizes ((processChannel_defined rfl rnn ch).of_eq_some t' hturn)).trans ht
  exact h.processed (by rw [hbuffer]; rfl) hhandles rfl r'.1

/-- A process call changes no owner, and where its behaviour is undefined there is no object left to speak of. -/
theorem process_sameShape (rnn : FrameProc F V.toVendor) (h : SameShape m s) (a : InitCall) (frame : Frame F) :
    Option.Rel SameShape ((m.process rnn a frame).map Prod.snd)
      (ownerStep (some s) (.process (m.process rnn a frame).isSome)) := by
  have hkeep : ∀ r, m.process rnn a frame = some r → SameShape r.2 s := by
    intro r hr
    cases a with
    | ns _ _ _ _ _ =>
        cases frame <;>
          · obtain ⟨r', hcall, rfl⟩ := Option.map_eq_some_iff.mp hr
            exact processCapture_sameShape h hcall
    | rnnoise _ _ _ _ =>
        cases frame with
        | shorts data =>
            obtain ⟨r', hcall, rfl⟩ := Option.map_eq_some_iff.mp hr
            exact processUseRnnoise_sameShape h hcall
        | floats data => exact absurd hr (Option.some_ne_none _).symm
  cases hr : m.process rnn a frame with
  | none => exact Option.Rel.none
  | some r => exact Option.Rel.some (hkeep r hr)

/-! ### Runs -/

/-- A call on an object of `Apm`: with the outcomes of the third-party calls, or with its samples. -/
inductive ObjectCall (F : Type)
  | init (o : Outcomes) (a : InitCall)
  | process (a : InitCall) (frame : Frame F)

/-- The object of `Apm` after a call, and the call on its owners; no object after undefined behaviour. -/
def objectStep (rnnoiseProcessFrame : FrameProc F V.toVendor) (s : Option (Apm F V)) :
    ObjectCall F → OwnerCall × Option (Apm F V)
  | .init o a => (.init o a, s.bind fun m =>
      match m.init o.calls a with
      | (.error .undefined, _) => none
      | (_, m') => some m')
  | .process a frame =>
      let s' := s.bind fun m => (m.process rnnoiseProcessFrame a frame).map Prod.snd
      (.process s'.isSome, s')

/-- The array of pointers of an init call finds memory. -/
def ObjectCall.HasArray : ObjectCall F → Prop
  | .init o _ => o.newChannelsPtr = true
  | .process _ _ => True

theorem objectStep_sameShape (hV : V.Total) (rnn : FrameProc F V.toVendor) {x : Option (Apm F V)} {y : Option Members}
    (h : Option.Rel SameShape x y) {c : ObjectCall F} (hc : c.HasArray) :
    Option.Rel SameShape (objectStep rnn x c).2 (ownerStep y (objectStep rnn x c).1) := by
  cases h with
  | none => cases c <;> exact Option.Rel.none
  | @some m s h =>
      cases c with
      | init o a =>
          obtain ⟨hanswer, hshape⟩ := init_sameShape (o := o) hV hc h a
          unfold objectStep ownerStep
          simp only [Option.bind_some]
          generalize m.init o.calls a = r at hanswer hshape ⊢
          generalize s.init o a = t at hanswer hshape ⊢
          obtain ⟨answer, m'⟩ := r
          obtain ⟨answer', s'⟩ := t
          obtain rfl : answer' = answer := hanswer
          cases answer' with
          | ok ok => exact Option.Rel.some hshape
          | error e =>
              cases e with
              | threw => exact Option.Rel.some hshape
              | undefined => exact Option.Rel.none
      | process a frame =>
          have hprocess := process_sameShape rnn h a frame
          rw [← Option.isSome_map (f := Prod.snd)] at hprocess
          exact hprocess

/-- **Every run of `Apm` is one of its owners.** -/
theorem run_sameShape (hV : V.Total) (rnn : FrameProc F V.toVendor) (h : SameShape m s) {calls : List (ObjectCall F)}
    (hcalls : ∀ c ∈ calls, c.HasArray) :
    Option.Rel SameShape (Runs.final (objectStep rnn) (some m) calls)
      (Runs.run ownerStep (some s) (Runs.outputs (objectStep rnn) (some m) calls)) :=
  Runs.run_outputs (Option.Rel SameShape) (fun _ _ c hc hxy => objectStep_sameShape hV rnn hxy (hcalls c hc))
    (Option.Rel.some h)

end Shape

end AudioProcess
