import AudioProcess.Apm.Model
import AudioProcess.Lib.CInt
import AudioProcess.Denoise.Handle

/-!
# The whole module (`WebRtc_AMP_Port/libapm/src/apm_ns.cpp`)

`APM_NS` with its noise suppression. The conversions `FloatToS16` and `S16ToFloat` of `audio_util.h` are those
of the denoiser.

* the float side of `IFChannelBuffer` and `AudioBuffer`;
* `NsVendor`, `Apm`; `Calls`: which third-party calls succeed;
* `initNsModule`, `initRnnoiseModule`; `initRnnoiseModule_eq`: the latter on the members of `ApmNs`;
* `captureChannel`, `processCapture` and its two overloads, `processUseRnnoise`.
-/

namespace AudioProcess

open CFloat CLoop CInt

variable {F : Type}

/-! ## The float side of the buffers -/

namespace IFChannelBuffer

variable [CFloat F]

/-- `RefreshF`. -/
def refreshF (b : IFChannelBuffer F) : IFChannelBuffer F :=
  if b.fvalid then b else { b with fbufData := fun ch j => shortToFloat (b.ibufData ch j), fvalid := true }

/-- `fbuf()`, for writing. -/
def fbuf (b : IFChannelBuffer F) : IFChannelBuffer F := { b.refreshF with ivalid := false }

/-- `fbuf_const()`, for reading. -/
def fbufConst (b : IFChannelBuffer F) : IFChannelBuffer F := b.refreshF

omit [CFloat F] in
/-- Write a channel through the pointer that `fbuf()` gave. -/
def writeF (b : IFChannelBuffer F) (ch : ℕ) (v : ℕ → F) : IFChannelBuffer F :=
  { b with fbufData := Function.update b.fbufData ch v }

end IFChannelBuffer

namespace AudioBuffer

variable [CFloat F] {V : Vendor}

/-- `split_bands_const_f(ch)`: the buffers it leaves. -/
def splitBandsConstF (b : AudioBuffer F V) (ch : ℕ) : Option (AudioBuffer F V) :=
  if ch < b.channels.numChannels then some (b.updateBands fun _ s => s.fbufConst) else none

/-- `split_bands_f(ch)`: the buffers it leaves. -/
def splitBandsF (b : AudioBuffer F V) (ch : ℕ) : Option (AudioBuffer F V) :=
  if ch < b.channels.numChannels then some (b.updateBands fun _ s => s.fbuf) else none

omit [CFloat F] in
/-- The bands of channel `ch` as floats. -/
def bandsF (b : AudioBuffer F V) (ch : ℕ) : ℕ → Option (ℕ → F) := fun k =>
  if b.splitChannels = [] then (if k = 0 then some (b.channels.fbufData ch) else none)
  else b.splitChannels[k]?.map fun s => s.fbufData ch

end AudioBuffer

/-! ## The members -/

/-- The noise suppression, beside the other third-party code. Its calls read `blockLen` samples of a band. -/
structure NsVendor (F : Type) extends Vendor where
  Ns : Type
  nsCreate : ℕ → Option Ns
  nsInit : ℕ → Ns → ℕ → Option Ns
  nsSetPolicy : ℕ → Ns → ℤ → Option Ns
  blockLen : Ns → ℕ
  nsAnalyze : Ns → (ℕ → F) → Ns
  nsProcess : Ns → (ℕ → Option (ℕ → F)) → ℕ → Ns × (ℕ → ℕ → F)

/-- `class APM_NS`. -/
structure Apm (F : Type) (V : NsVendor F) extends ApmNs F V.toVendor where
  nsHandles : List V.Ns
  nsMode : ℤ

/-- Which third-party calls of an init call succeed when their arguments allow it: those that make the gain
control or the noise suppression of a channel, and the allocation of the capture buffer. -/
structure Calls where
  agc : ℕ → Bool
  ns : ℕ → Bool
  alloc : Bool

/-- Every call succeeds. -/
def Calls.all : Calls := ⟨fun _ => true, fun _ => true, true⟩

/-- Why a call does not return: it throws, or its behaviour is undefined. -/
inductive Abort
  | threw
  | undefined
  deriving DecidableEq

variable [CFloat F] {V : NsVendor F}

/-! ## Initialisation -/

/-- `kMaxNumBands`. -/
def kMaxNumBands : ℤ := 3

/-- `new AudioBuffer(frames, channels, frames, channels, frames)`: its sizes are `int`s. -/
def newAudioBuffer (V : Vendor) (alloc : Bool) (frames channels : ℤ) : Except Abort (AudioBuffer F V) :=
  if frames * channels > intMax ∨ frames * channels < intMin ∨ channels * kMaxNumBands > intMax ∨
      channels * kMaxNumBands < intMin then .error .undefined
  else if frames * channels < 0 ∨ channels < 0 ∨ alloc = false then .error .threw
  else .ok (AudioBuffer.create V frames.toNat channels.toNat)

omit [CFloat F] in
/-- The gain control of channel `i`, for both init calls. -/
def addAgc (calls : Calls) (frequency i : ℕ) (m : Apm F V) : Option (Apm F V) :=
  if calls.agc i then
    (createAgc V.toVendor frequency i).map fun handle =>
      { m with agcHandles := m.agcHandles ++ [handle], captureLevel := m.captureLevel ++ [0] }
  else none

omit [CFloat F] in
/-- The noise suppression of channel `i`. -/
def createNs (V : NsVendor F) (calls : Calls) (frequency : ℕ) (nsMode : ℤ) (i : ℕ) : Option V.Ns :=
  if calls.ns i then do
    let handle ← V.nsCreate i
    let handle ← V.nsInit i handle frequency
    V.nsSetPolicy i handle nsMode
  else none

omit [CFloat F] in
/-- `initNsModule` for channel `i`. -/
def initNsChannel (calls : Calls) (frequency : ℕ) (nsMode : ℤ) (doAgc : Bool) (i : ℕ) (r : Bool × Apm F V) :
    Bool × Apm F V :=
  if ¬ r.1 then r
  else
    match if doAgc then addAgc calls frequency i r.2 else some r.2 with
    | none => (false, r.2)
    | some m =>
        match createNs V calls frequency nsMode i with
        | none => (false, m)
        | some handle => (true, { m with nsHandles := m.nsHandles ++ [handle] })

/-- `initNsModule`. -/
def Apm.initNsModule (calls : Calls) (m : Apm F V) (frequency : ℕ) (nsMode inputFrames inputChannels : ℤ)
    (doAgc : Bool) : Except Abort Bool × Apm F V :=
  let m := { m with frequency := frequency, channels := inputChannels, nsMode := nsMode, doAgc := doAgc }
  if m.channels < 0 then (.ok false, m)
  else
    let m := { m with nsHandles := [] }
    let m := if doAgc then { m with agcHandles := [] } else m
    let r := forLoop 0 m.channels.toNat (initNsChannel calls frequency nsMode doAgc) (true, m)
    if ¬ r.1 then (.ok false, r.2)
    else
      match newAudioBuffer V.toVendor calls.alloc inputFrames inputChannels with
      | .error e => (.error e, r.2)
      | .ok buffer => (.ok true, { r.2 with captureBuffer := some buffer })

omit [CFloat F] in
/-- `initRnnoiseModule` for channel `i`. -/
def Apm.initRnnoiseChannel (calls : Calls) (frequency : ℕ) (doAgc : Bool) (i : ℕ) (r : Bool × Apm F V) :
    Bool × Apm F V :=
  if ¬ r.1 then r
  else
    match if doAgc then addAgc calls frequency i r.2 else some r.2 with
    | none => (false, r.2)
    | some m => (true, { m with rnnoiseHandles := m.rnnoiseHandles ++ [V.rnnoiseCreate i] })

/-- The capture buffer of `initRnnoiseModule`. -/
def Apm.rnnoiseBuffer (calls : Calls) (m : Apm F V) (inputFrames inputChannels : ℤ) :
    Except Abort (AudioBuffer F V.toVendor) :=
  match m.captureBuffer with
  | some buffer => .ok buffer
  | none => newAudioBuffer V.toVendor calls.alloc inputFrames inputChannels

/-- `initRnnoiseModule`. -/
def Apm.initRnnoiseModule (calls : Calls) (m : Apm F V) (frequency : ℕ) (inputFrames inputChannels : ℤ)
    (doAgc : Bool) : Except Abort Bool × Apm F V :=
  if frequency ≠ 48000 ∨ inputFrames ≠ 480 then (.ok false, m)
  else
    match m.rnnoiseBuffer calls inputFrames inputChannels with
    | .error e => (.error e, m)
    | .ok buffer =>
        let r := forLoop 0 inputChannels.toNat (Apm.initRnnoiseChannel calls frequency doAgc)
          (true, { m with
            captureBuffer := some buffer
            frequency := frequency
            channels := inputChannels
            doAgc := doAgc })
        (.ok r.1, r.2)

/-! ## What an init call adds -/

section Added

omit [CFloat F]

variable {calls : Calls} {m m' : Apm F V} {frequency i n : ℕ} {nsMode : ℤ} {doAgc : Bool}

theorem addAgc_eq_some (h : addAgc calls frequency i m = some m') : ∃ handle,
    createAgc V.toVendor frequency i = some handle ∧
      m' = { m with agcHandles := m.agcHandles ++ [handle], captureLevel := m.captureLevel ++ [0] } := by
  unfold addAgc at h
  split_ifs at h
  obtain ⟨handle, hcreate, rfl⟩ := Option.map_eq_some_iff.mp h
  exact ⟨handle, hcreate, rfl⟩

theorem createNs_eq_some {handle : V.Ns} (h : createNs V calls frequency nsMode i = some handle) :
    ∃ h₀ h₁, V.nsCreate i = some h₀ ∧ V.nsInit i h₀ frequency = some h₁ ∧
      V.nsSetPolicy i h₁ nsMode = some handle := by
  unfold createNs at h
  split_ifs at h
  obtain ⟨h₀, hcreate, h⟩ := Option.bind_eq_some_iff.mp h
  obtain ⟨h₁, hinit, hpolicy⟩ := Option.bind_eq_some_iff.mp h
  exact ⟨h₀, h₁, hcreate, hinit, hpolicy⟩

/-- What one turn of `initNsModule` adds. -/
theorem initNsChannel_cases (calls : Calls) (frequency : ℕ) (nsMode : ℤ) (doAgc : Bool) (i : ℕ)
    (r : Bool × Apm F V) :
    (initNsChannel calls frequency nsMode doAgc i r).1 = false ∨
    ∃ m₁ handle, r.1 = true ∧ (if doAgc then addAgc calls frequency i r.2 else some r.2) = some m₁ ∧
      createNs V calls frequency nsMode i = some handle ∧
      initNsChannel calls frequency nsMode doAgc i r = (true, { m₁ with nsHandles := m₁.nsHandles ++ [handle] }) := by
  obtain ⟨ok, m⟩ := r
  cases ok with
  | false => exact Or.inl rfl
  | true =>
      unfold initNsChannel
      rw [if_neg (by simp)]
      cases (if doAgc then addAgc calls frequency i m else some m) with
      | none => exact Or.inl rfl
      | some m₁ =>
          cases createNs V calls frequency nsMode i with
          | none => exact Or.inl rfl
          | some handle => exact Or.inr ⟨m₁, handle, rfl, rfl, rfl, rfl⟩

/-- What one turn of `initRnnoiseModule` adds. -/
theorem initRnnoiseChannel_cases (calls : Calls) (frequency : ℕ) (doAgc : Bool) (i : ℕ) (r : Bool × Apm F V) :
    (Apm.initRnnoiseChannel calls frequency doAgc i r).1 = false ∨
    ∃ m₁, r.1 = true ∧ (if doAgc then addAgc calls frequency i r.2 else some r.2) = some m₁ ∧
      Apm.initRnnoiseChannel calls frequency doAgc i r =
        (true, { m₁ with rnnoiseHandles := m₁.rnnoiseHandles ++ [V.rnnoiseCreate i] }) := by
  obtain ⟨ok, m⟩ := r
  cases ok with
  | false => exact Or.inl rfl
  | true =>
      unfold Apm.initRnnoiseChannel
      rw [if_neg (by simp)]
      cases (if doAgc then addAgc calls frequency i m else some m) with
      | none => exact Or.inl rfl
      | some m₁ => exact Or.inr ⟨m₁, rfl, rfl, rfl⟩

/-- The handles that `n` successful calls create. -/
def created {α : Type*} (n : ℕ) (create : ℕ → Option α) : List α := (List.range n).filterMap create

theorem created_succ {α : Type*} {create : ℕ → Option α} {a : α} (n : ℕ) (h : create n = some a) :
    created (n + 1) create = created n create ++ [a] := by
  rw [created, List.range_succ, List.filterMap_append, List.filterMap_cons_some h]
  rfl

theorem length_created {α : Type*} {create : ℕ → Option α} (h : ∀ i < n, ∃ a, create i = some a) :
    (created n create).length = n := by
  induction n with
  | zero => rfl
  | succ n ih =>
      obtain ⟨a, ha⟩ := h n (Nat.lt_succ_self n)
      rw [created_succ n ha, List.length_append, ih fun i hi => h i (by omega)]
      rfl

theorem getElem?_created {α : Type*} {create : ℕ → Option α} (h : ∀ i < n, ∃ a, create i = some a) (hi : i < n) :
    (created n create)[i]? = create i := by
  induction n with
  | zero => exact absurd hi (Nat.not_lt_zero i)
  | succ n ih =>
      obtain ⟨a, ha⟩ := h n (Nat.lt_succ_self n)
      have hn : ∀ i < n, ∃ a, create i = some a := fun i hi => h i (by omega)
      have hlen := length_created hn
      rw [created_succ n ha]
      rcases Nat.lt_succ_iff_lt_or_eq.mp hi with hlt | rfl
      · rw [List.getElem?_append_left (by omega), ih hn hlt]
      · rw [List.getElem?_append_right hlen.le, hlen, Nat.sub_self, ha]
        rfl

/-- The module with the gain control of `n` more channels, where there is gain control. -/
def Apm.addAgcs (m : Apm F V) (frequency n : ℕ) (doAgc : Bool) : Apm F V :=
  if doAgc then
    { m with
      agcHandles := m.agcHandles ++ created n (createAgc V.toVendor frequency)
      captureLevel := m.captureLevel ++ List.replicate n 0 }
  else m

section Fields

variable (m : Apm F V) (frequency n : ℕ) (doAgc : Bool)

@[simp] theorem nsHandles_addAgcs : (m.addAgcs frequency n doAgc).nsHandles = m.nsHandles := by
  cases doAgc <;> rfl

@[simp] theorem rnnoiseHandles_addAgcs : (m.addAgcs frequency n doAgc).rnnoiseHandles = m.rnnoiseHandles := by
  cases doAgc <;> rfl

@[simp] theorem captureBuffer_addAgcs : (m.addAgcs frequency n doAgc).captureBuffer = m.captureBuffer := by
  cases doAgc <;> rfl

@[simp] theorem frequency_addAgcs (rate : ℕ) : (m.addAgcs rate n doAgc).frequency = m.frequency := by
  cases doAgc <;> rfl

@[simp] theorem channels_addAgcs : (m.addAgcs frequency n doAgc).channels = m.channels := by
  cases doAgc <;> rfl

@[simp] theorem doAgc_addAgcs (d : Bool) : (m.addAgcs frequency n d).doAgc = m.doAgc := by
  cases d <;> rfl

end Fields

theorem addAgcs_succ (h : (if doAgc then addAgc calls frequency n (m.addAgcs frequency n doAgc)
    else some (m.addAgcs frequency n doAgc)) = some m') :
    m' = m.addAgcs frequency (n + 1) doAgc ∧ (doAgc → ∃ handle, createAgc V.toVendor frequency n = some handle) := by
  cases doAgc with
  | false => exact ⟨(Option.some.inj h).symm, fun h => Bool.noConfusion h⟩
  | true =>
      obtain ⟨handle, hcreate, rfl⟩ := addAgc_eq_some h
      refine ⟨?_, fun _ => ⟨handle, hcreate⟩⟩
      simp only [Apm.addAgcs, if_true, created_succ n hcreate, List.replicate_succ', List.append_assoc]

/-- **What a successful loop of `initNsModule` adds.** -/
theorem initNsLoop_eq (h : (forLoop 0 n (initNsChannel calls frequency nsMode doAgc) (true, m)).1 = true) :
    (forLoop 0 n (initNsChannel calls frequency nsMode doAgc) (true, m)).2 =
        { m with nsHandles := m.nsHandles ++ created n (createNs V calls frequency nsMode) }.addAgcs frequency n doAgc ∧
      (∀ i < n, ∃ handle, createNs V calls frequency nsMode i = some handle) ∧
      (doAgc → ∀ i < n, ∃ handle, createAgc V.toVendor frequency i = some handle) := by
  induction n with
  | zero =>
      refine ⟨?_, fun i hi => absurd hi (Nat.not_lt_zero i), fun _ i hi => absurd hi (Nat.not_lt_zero i)⟩
      cases doAgc <;> simp [created, Apm.addAgcs, forLoop_self]
  | succ n ih =>
      rw [forLoop_succ (Nat.zero_le n)] at h ⊢
      obtain hfail | ⟨m₁, handle, hok, hagc, hns, hturn⟩ := initNsChannel_cases calls frequency nsMode doAgc n
        (forLoop 0 n (initNsChannel calls frequency nsMode doAgc) (true, m))
      · exact absurd h (by rw [hfail]; exact Bool.false_ne_true)
      · obtain ⟨heq, hnsOk, hagcOk⟩ := ih hok
        rw [heq] at hagc
        obtain ⟨rfl, hagcNew⟩ := addAgcs_succ hagc
        rw [hturn]
        refine ⟨?_, fun i hi => ?_, fun hdo i hi => ?_⟩
        · rw [created_succ n hns]
          cases doAgc <;> simp [Apm.addAgcs]
        · rcases Nat.lt_succ_iff_lt_or_eq.mp hi with hlt | rfl
          · exact hnsOk i hlt
          · exact ⟨handle, hns⟩
        · rcases Nat.lt_succ_iff_lt_or_eq.mp hi with hlt | rfl
          · exact hagcOk hdo i hlt
          · exact hagcNew hdo

/-- **What a successful loop of `initRnnoiseModule` adds.** -/
theorem initRnnoiseLoop_eq
    (h : (forLoop 0 n (Apm.initRnnoiseChannel calls frequency doAgc) (true, m)).1 = true) :
    (forLoop 0 n (Apm.initRnnoiseChannel calls frequency doAgc) (true, m)).2 =
        { m with rnnoiseHandles := m.rnnoiseHandles ++ (List.range n).map V.rnnoiseCreate }.addAgcs frequency n doAgc ∧
      (doAgc → ∀ i < n, ∃ handle, createAgc V.toVendor frequency i = some handle) := by
  induction n with
  | zero =>
      refine ⟨?_, fun _ i hi => absurd hi (Nat.not_lt_zero i)⟩
      cases doAgc <;> simp [created, Apm.addAgcs, forLoop_self]
  | succ n ih =>
      rw [forLoop_succ (Nat.zero_le n)] at h ⊢
      obtain hfail | ⟨m₁, hok, hagc, hturn⟩ := initRnnoiseChannel_cases calls frequency doAgc n
        (forLoop 0 n (Apm.initRnnoiseChannel calls frequency doAgc) (true, m))
      · exact absurd h (by rw [hfail]; exact Bool.false_ne_true)
      · obtain ⟨heq, hagcOk⟩ := ih hok
        rw [heq] at hagc
        obtain ⟨rfl, hagcNew⟩ := addAgcs_succ hagc
        rw [hturn]
        refine ⟨?_, fun hdo i hi => ?_⟩
        · rw [List.range_succ, List.map_append]
          cases doAgc <;> simp [Apm.addAgcs]
        · rcases Nat.lt_succ_iff_lt_or_eq.mp hi with hlt | rfl
          · exact hagcOk hdo i hlt
          · exact hagcNew hdo

end Added

section Ok

variable {calls : Calls} {m m' : Apm F V} {frequency : ℕ} {nsMode frames channels : ℤ} {doAgc : Bool}

omit [CFloat F] in
/-- The module before the loop of `initNsModule`. -/
def Apm.startNs (m : Apm F V) (frequency : ℕ) (nsMode channels : ℤ) (doAgc : Bool) : Apm F V :=
  { m with
    frequency := frequency
    channels := channels
    nsMode := nsMode
    doAgc := doAgc
    agcHandles := if doAgc then [] else m.agcHandles
    nsHandles := [] }

theorem initNsModule_eq (hchannels : 0 ≤ channels) :
    m.initNsModule calls frequency nsMode frames channels doAgc =
      let r := forLoop 0 channels.toNat (initNsChannel calls frequency nsMode doAgc)
        (true, m.startNs frequency nsMode channels doAgc)
      if ¬ r.1 then (.ok false, r.2)
      else
        match newAudioBuffer V.toVendor calls.alloc frames channels with
        | .error e => (.error e, r.2)
        | .ok buffer => (.ok true, { r.2 with captureBuffer := some buffer }) := by
  unfold Apm.initNsModule
  simp only [if_neg (not_lt.mpr hchannels)]
  cases doAgc <;> rfl

/-- The module after `initNsModule`. -/
def Apm.afterNs (m : Apm F V) (calls : Calls) (frequency : ℕ) (nsMode frames channels : ℤ) (doAgc : Bool) :
    Apm F V :=
  { { m.startNs frequency nsMode channels doAgc with
      nsHandles := created channels.toNat (createNs V calls frequency nsMode) }.addAgcs frequency channels.toNat
      doAgc with
    captureBuffer := some (AudioBuffer.create V.toVendor frames.toNat channels.toNat) }

/-- **A successful `initNsModule`.** -/
theorem initNsModule_ok (h : m.initNsModule calls frequency nsMode frames channels doAgc = (.ok true, m')) :
    m' = m.afterNs calls frequency nsMode frames channels doAgc ∧ 0 ≤ channels ∧ 0 ≤ frames * channels ∧
      (∀ i < channels.toNat, ∃ handle, createNs V calls frequency nsMode i = some handle) ∧
      (doAgc → ∀ i < channels.toNat, ∃ handle, createAgc V.toVendor frequency i = some handle) := by
  have hchannels : 0 ≤ channels := by
    by_contra hneg
    unfold Apm.initNsModule at h
    simp only [if_pos (not_le.mp hneg)] at h
    cases h
  rw [initNsModule_eq hchannels] at h
  simp only at h
  split_ifs at h with hok
  · obtain ⟨heq, hns, hagc⟩ := initNsLoop_eq hok
    rw [heq] at h
    unfold newAudioBuffer at h
    split_ifs at h with hover hthrow
    · cases h
    · cases h
    · obtain ⟨-, rfl⟩ := Prod.mk.inj h
      exact ⟨rfl, hchannels, by omega, hns, hagc⟩
  · cases h

/-- The module after `initRnnoiseModule`, with the buffer `buffer`. -/
def Apm.afterRnnoise (m : Apm F V) (buffer : AudioBuffer F V.toVendor) (frequency : ℕ) (channels : ℤ)
    (doAgc : Bool) : Apm F V :=
  { m with
    captureBuffer := some buffer
    frequency := frequency
    channels := channels
    doAgc := doAgc
    rnnoiseHandles := m.rnnoiseHandles ++ (List.range channels.toNat).map V.rnnoiseCreate }.addAgcs frequency
      channels.toNat doAgc

/-- **A successful `initRnnoiseModule`.** -/
theorem initRnnoiseModule_ok (h : m.initRnnoiseModule calls frequency frames channels doAgc = (.ok true, m')) :
    frequency = 48000 ∧ frames = 480 ∧ ∃ buffer, m.rnnoiseBuffer calls frames channels = .ok buffer ∧
      m' = m.afterRnnoise buffer frequency channels doAgc ∧
      (doAgc → ∀ i < channels.toNat, ∃ handle, createAgc V.toVendor frequency i = some handle) := by
  unfold Apm.initRnnoiseModule at h
  split_ifs at h with hbad
  · cases h
  · obtain ⟨hfrequency, hframes⟩ := not_or.mp hbad
    refine ⟨not_not.mp hfrequency, not_not.mp hframes, ?_⟩
    cases hbuffer : m.rnnoiseBuffer calls frames channels with
    | error e =>
        rw [hbuffer] at h
        cases h
    | ok buffer =>
        rw [hbuffer] at h
        obtain ⟨hok, rfl⟩ := Prod.mk.inj h
        obtain ⟨heq, hagc⟩ := initRnnoiseLoop_eq (Except.ok.inj hok)
        exact ⟨buffer, rfl, heq, hagc⟩

end Ok

/-! ## Processing -/

/-- A turn with the noise suppression. -/
structure NsTurn (F : Type) (V : NsVendor F) extends Turn F V.toVendor where
  nsHandles : List V.Ns

/-- The noise suppression on channel `ch`. -/
def nsChannel (ch : ℕ) (t : NsTurn F V) : Option (NsTurn F V) := do
  let handle ← t.nsHandles[ch]?
  let b ← t.buffer.splitBandsConstF ch
  let band ← b.bandsF ch 0
  if b.samplesPerSplitChannel < V.blockLen handle then none
  else do
    let handle := V.nsAnalyze handle band
    let b ← b.splitBandsF ch
    let r := V.nsProcess handle (b.bandsF ch) b.numBands
    return { t with
      buffer := b.updateBands fun k s => s.writeF ch (r.2 k)
      nsHandles := t.nsHandles.set ch r.1 }

/-- The loop over the channels of `processCaptureStream` at `ch`. -/
def captureChannel (ch : ℕ) (t : NsTurn F V) : Option (NsTurn F V) := do
  let turn ← if t.apm.doAgc then agcChannel ch t.toTurn else some t.toTurn
  nsChannel ch { t with toTurn := turn }

/-- Channel `i` of the buffer into interleaved samples in `α`. -/
def interleaveChannelWith {α : Type} {V : Vendor} (store : Int16 → α) (samples n i : ℕ)
    (r : AudioBuffer F V × (ℕ → α)) : Option (AudioBuffer F V × (ℕ → α)) := do
  let b ← r.1.data i samples
  return (b, forLoop 0 samples
    (fun j data => Function.update data (i + n * j) (store (b.channels.ibufData i j))) r.2)

omit [CFloat F] in
/-- The module splits the signal of `processCaptureStream`. -/
def Apm.HasBands (m : Apm F V) : Prop := m.frequency = 32000 ∨ m.frequency = 48000

instance (m : Apm F V) : Decidable m.HasBands := inferInstanceAs (Decidable (_ ∨ _))

/-- `processCaptureStream` on samples in `α`: the samples in place, and the module. -/
def Apm.processCapture {α : Type} (load : α → Int16) (store : Int16 → α) (m : Apm F V) (data : ℕ → α)
    (samplesPerChannel inputChannels : ℤ) : Option ((ℕ → α) × Apm F V) := do
  let samples := samplesPerChannel.toNat
  let n := inputChannels.toNat
  let b ← m.captureBuffer
  let b ← forLoopM 0 n (deinterleaveChannel (fun p => load (data p)) samples n) b
  let b ← if m.HasBands then b.splitIntoFrequencyBands else some b
  let t ← forLoopM 0 m.channels.toNat captureChannel ⟨⟨m.toApmNs, b, 0, 0⟩, m.nsHandles⟩
  let b ← if m.HasBands then t.buffer.mergeFrequencyBands else some t.buffer
  let (b, data) ← forLoopM 0 n (interleaveChannelWith store samples n) (b, data)
  return (data, { m with toApmNs := { t.apm with captureBuffer := some b }, nsHandles := t.nsHandles })

/-- `processCaptureStream(short *)`. -/
def Apm.processCaptureStream (m : Apm F V) (data : ℕ → Int16) (samplesPerChannel inputChannels : ℤ) :
    Option ((ℕ → Int16) × Apm F V) :=
  m.processCapture id id data samplesPerChannel inputChannels

/-- `processCaptureStream(float *)`. -/
def Apm.processCaptureStreamFloat (m : Apm F V) (data : ℕ → F) (samplesPerChannel inputChannels : ℤ) :
    Option ((ℕ → F) × Apm F V) :=
  m.processCapture floatToS16 s16ToFloat data samplesPerChannel inputChannels

/-- `processUseRnnoise`, on the members of `ApmNs`. -/
def Apm.processUseRnnoise (rnnoiseProcessFrame : FrameProc F V.toVendor) (m : Apm F V) (data : ℕ → Int16)
    (samplesPerChannel inputChannels : ℤ) : Option ((ℕ → Int16) × Apm F V) := do
  let (data, apm) ← AudioProcess.processUseRnnoise rnnoiseProcessFrame m.toApmNs data samplesPerChannel inputChannels
  return (data, { m with toApmNs := apm })

/-! ## The steps of a call in sequence -/

theorem captureChannel_eq (ch : ℕ) (t : NsTurn F V) : captureChannel ch t =
    (if t.apm.doAgc then agcChannel ch t.toTurn else some t.toTurn).bind fun turn =>
      nsChannel ch { t with toTurn := turn } := by
  unfold captureChannel
  split_ifs <;> rfl

theorem Apm.processCapture_eq {α : Type} (load : α → Int16) (store : Int16 → α) (m : Apm F V) (data : ℕ → α)
    (samplesPerChannel inputChannels : ℤ) :
    m.processCapture load store data samplesPerChannel inputChannels =
      m.captureBuffer.bind fun b =>
      (forLoopM 0 inputChannels.toNat (deinterleaveChannel (fun p => load (data p)) samplesPerChannel.toNat
        inputChannels.toNat) b).bind fun b =>
      (if m.HasBands then b.splitIntoFrequencyBands else some b).bind fun b =>
      (forLoopM 0 m.channels.toNat captureChannel ⟨⟨m.toApmNs, b, 0, 0⟩, m.nsHandles⟩).bind fun t =>
      (if m.HasBands then t.buffer.mergeFrequencyBands else some t.buffer).bind fun b =>
      (forLoopM 0 inputChannels.toNat (interleaveChannelWith store samplesPerChannel.toNat inputChannels.toNat)
        (b, data)).bind fun r =>
      some (r.2, { m with toApmNs := { t.apm with captureBuffer := some r.1 }, nsHandles := t.nsHandles }) := by
  unfold Apm.processCapture
  split_ifs <;> rfl

section Turns

variable {V : Vendor}

/-- The gain control on a channel that has a handle, a level and bands. -/
theorem agcChannel_of {t : Turn F V} {ch : ℕ} {handle : V.Agc} {level : ℤ} {b : AudioBuffer F V}
    (hhandle : t.apm.agcHandles[ch]? = some handle) (hlevel : t.apm.captureLevel[ch]? = some level)
    (hopen : t.buffer.splitBands ch = some b) :
    agcChannel ch t = some
      (let r := V.agcProcess handle (b.bands ch) b.numBands (Int16.ofNat b.samplesPerSplitChannel) level
        t.captureLevel t.streamIsSaturated
      { apm := { t.apm with
          agcHandles := t.apm.agcHandles.set ch r.handle
          captureLevel := t.apm.captureLevel.set ch r.outMicLevel }
        buffer := b.updateBands fun k s => s.write ch (r.out k)
        captureLevel := r.outMicLevel
        streamIsSaturated := r.saturationWarning }) := by
  rw [agcChannel, hhandle, hlevel, hopen]
  rfl

theorem processChannel_eq (rnn : FrameProc F V) (ch : ℕ) (t : Turn F V) : processChannel rnn ch t =
    (if t.apm.doAgc then agcChannel ch t else some t).bind (rnnoiseChannel rnn ch) := by
  unfold processChannel
  split_ifs <;> rfl

theorem processUseRnnoise_bind (rnn : FrameProc F V) (m : ApmNs F V) (data : ℕ → Int16)
    (samplesPerChannel inputChannels : ℤ) :
    AudioProcess.processUseRnnoise rnn m data samplesPerChannel inputChannels =
      m.captureBuffer.bind fun b =>
      (forLoopM 0 inputChannels.toNat (deinterleaveChannel data samplesPerChannel.toNat inputChannels.toNat)
        b).bind fun b =>
      (if m.Splits then b.splitIntoFrequencyBands else some b).bind fun b =>
      (forLoopM 0 inputChannels.toNat (processChannel rnn) ⟨m, b, 0, 0⟩).bind fun t =>
      (if m.Splits then t.buffer.mergeFrequencyBands else some t.buffer).bind fun b =>
      (forLoopM 0 inputChannels.toNat (interleaveChannelWith id samplesPerChannel.toNat inputChannels.toNat)
        (b, data)).bind fun r =>
      some (r.2, { t.apm with captureBuffer := some r.1 }) := by
  unfold AudioProcess.processUseRnnoise
  split_ifs <;> rfl

end Turns

/-! ## Calls on an object -/

omit [CFloat F] in
/-- A newly constructed object. -/
structure Apm.Constructed (m : Apm F V) : Prop where
  nsHandles : m.nsHandles = []
  agcHandles : m.agcHandles = []
  rnnoiseHandles : m.rnnoiseHandles = []
  captureLevel : m.captureLevel = []
  captureBuffer : m.captureBuffer = none
  doAgc : m.doAgc = false

/-- A call of one of the init functions. -/
inductive InitCall
  | ns (frequency : ℕ) (nsMode inputFrames inputChannels : ℤ) (doAgc : Bool)
  | rnnoise (frequency : ℕ) (inputFrames inputChannels : ℤ) (doAgc : Bool)

/-- An init call on `m`. -/
def Apm.init (m : Apm F V) (calls : Calls) : InitCall → Except Abort Bool × Apm F V
  | .ns frequency nsMode inputFrames inputChannels doAgc =>
      m.initNsModule calls frequency nsMode inputFrames inputChannels doAgc
  | .rnnoise frequency inputFrames inputChannels doAgc =>
      m.initRnnoiseModule calls frequency inputFrames inputChannels doAgc

/-- The interleaved samples of a process call. -/
inductive Frame (F : Type)
  | shorts (data : ℕ → Int16)
  | floats (data : ℕ → F)

/-- The process call that matches an init call: the overload of `processCaptureStream` for the frame, or
`processUseRnnoise`, which has none for `float`. -/
def Apm.process (rnnoiseProcessFrame : FrameProc F V.toVendor) (m : Apm F V) :
    InitCall → Frame F → Option (Frame F × Apm F V)
  | .ns _ _ inputFrames inputChannels _, .shorts data =>
      (m.processCaptureStream data inputFrames inputChannels).map (Prod.map .shorts id)
  | .ns _ _ inputFrames inputChannels _, .floats data =>
      (m.processCaptureStreamFloat data inputFrames inputChannels).map (Prod.map .floats id)
  | .rnnoise _ inputFrames inputChannels _, .shorts data =>
      (m.processUseRnnoise rnnoiseProcessFrame data inputFrames inputChannels).map (Prod.map .shorts id)
  | .rnnoise _ _ _ _, .floats _ => none

/-- A call on an object: of an init function, with the third-party calls that succeed, or of the process function
that matches an init call. -/
inductive ApmCall (F : Type)
  | init (calls : Calls) (a : InitCall)
  | process (a : InitCall) (frame : Frame F)

/-- The object after a successful call. -/
def Apm.call (rnnoiseProcessFrame : FrameProc F V.toVendor) (m : Apm F V) : ApmCall F → Option (Apm F V)
  | .init calls a =>
      match m.init calls a with
      | (.ok true, m') => some m'
      | _ => none
  | .process a frame => (m.process rnnoiseProcessFrame a frame).map Prod.snd

/-- The object after a sequence of successful calls. -/
def Apm.play (rnnoiseProcessFrame : FrameProc F V.toVendor) (m : Apm F V) (history : List (ApmCall F)) :
    Option (Apm F V) :=
  history.foldlM (Apm.call rnnoiseProcessFrame) m

/-! ## `initRnnoiseModule` on the members of `ApmNs` -/

omit [CFloat F] in
theorem initRnnoiseChannel_eq (frequency : ℕ) (doAgc : Bool) (i : ℕ) (r : Bool × Apm F V) :
    (Apm.initRnnoiseChannel .all frequency doAgc i r).map id Apm.toApmNs =
      initRnnoiseChannel frequency doAgc i (r.map id Apm.toApmNs) := by
  obtain ⟨ok, m⟩ := r
  cases ok with
  | false => rfl
  | true =>
      cases doAgc with
      | false => rfl
      | true =>
          have hall : addAgc .all frequency i m = (createAgc V.toVendor frequency i).map fun handle =>
              { m with agcHandles := m.agcHandles ++ [handle], captureLevel := m.captureLevel ++ [0] } := rfl
          unfold Apm.initRnnoiseChannel initRnnoiseChannel
          simp only [not_true_eq_false, if_false, if_true, Prod.map_apply, id_eq, hall]
          cases createAgc V.toVendor frequency i <;> rfl

theorem rnnoiseBuffer_eq (m : Apm F V) {inputChannels : ℤ} (hsize : 480 * |inputChannels| ≤ intMax) :
    AudioProcess.rnnoiseBuffer m.toApmNs 480 inputChannels = (m.rnnoiseBuffer .all 480 inputChannels).toOption := by
  unfold AudioProcess.rnnoiseBuffer Apm.rnnoiseBuffer
  cases m.captureBuffer with
  | some b => rfl
  | none =>
      have habs := abs_le.mp (le_refl |inputChannels|)
      unfold intMax at hsize
      have hsmall : ¬ (480 * inputChannels > intMax ∨ 480 * inputChannels < intMin ∨
          inputChannels * kMaxNumBands > intMax ∨ inputChannels * kMaxNumBands < intMin) := by
        unfold intMax intMin kMaxNumBands
        omega
      simp only [newAudioBuffer, if_neg hsmall, Calls.all, Bool.true_eq_false, or_false]
      by_cases hneg : inputChannels < 0
      · rw [if_pos hneg, if_pos (Or.inr hneg)]
        rfl
      · rw [if_neg hneg, if_neg (by omega)]
        rfl

/-- When no call fails and the buffer has a size, the two models of `initRnnoiseModule` agree. -/
theorem initRnnoiseModule_eq (m : Apm F V) (frequency : ℕ) (inputFrames inputChannels : ℤ) (doAgc : Bool)
    (hsize : 480 * |inputChannels| ≤ intMax) :
    AudioProcess.initRnnoiseModule m.toApmNs frequency inputFrames inputChannels doAgc =
      match m.initRnnoiseModule .all frequency inputFrames inputChannels doAgc with
      | (.ok ok, m') => some (ok, m'.toApmNs)
      | (.error _, _) => none := by
  unfold AudioProcess.initRnnoiseModule Apm.initRnnoiseModule
  split_ifs with hbad
  · rfl
  · obtain ⟨-, hframes⟩ := not_or.mp hbad
    rw [not_not.mp hframes, rnnoiseBuffer_eq m hsize]
    cases m.rnnoiseBuffer .all 480 inputChannels with
    | error e => rfl
    | ok b =>
        have hloop := forLoop_map (Prod.map id Apm.toApmNs)
          (true, { m with captureBuffer := some b, frequency := frequency, channels := inputChannels, doAgc := doAgc })
          (a := 0) (b := inputChannels.toNat) fun i r => (initRnnoiseChannel_eq frequency doAgc i r).symm
        exact congrArg some hloop

end AudioProcess
