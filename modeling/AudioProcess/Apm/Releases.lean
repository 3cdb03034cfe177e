import AudioProcess.Apm.Owners
import AudioProcess.Lib.Ledger
import AudioProcess.Lib.Run

/-!
# When everything is released once (`WebRtc_AMP_Port/libapm/src/apm_ns.cpp`)

* `Members.ledger`: what was created, and what the destructor releases; `Members.Change`: what a call does to both;
* `addHandle_keeps`, `initChannels_keep`: a handle, and the loops over the channels;
* `NsCareful`, `RnnoiseCareful`: the init calls that lose nothing; `initNsModule_ends`, `initRnnoiseModule_ends`;
* `ReleasedOnce`; **`released_nodup`**: nothing is released twice; **`releasedOnce_iff`**: everything is released
  once exactly if no call loses anything.
-/

namespace AudioProcess

open CLoop Ledger

namespace Members

variable {m m' : Members} {dropped new kept : List Resource} {whole : Bool}

/-! ## The ledger of an object -/

/-- What was created, and what the destructor releases of it. -/
def ledger (m : Members) : Ledger Resource := ⟨m.created, m.released⟩

/-- What has to be released: with `whole`, an `AudioBuffer` is released with all that it allocates. -/
def Counts (whole : Bool) (r : Resource) : Prop := r.kind = .audioBufferData → whole = true

instance (whole : Bool) (r : Resource) : Decidable (Counts whole r) := inferInstanceAs (Decidable (_ → _))

/-- The invariant: what is released was created, and is released once; and the next handle is new. -/
structure Sound (m : Members) : Prop where
  ledger : m.ledger.Sound
  id_lt : ∀ r ∈ m.created, r.id < m.next

/-- Everything that counts is released. -/
def Settled (whole : Bool) (m : Members) : Prop := m.ledger.Settled (Counts whole)

theorem kind_released {r : Resource} (hr : r ∈ m.released) : r.kind ≠ .audioBufferData := by
  simp only [released, List.mem_append, List.mem_map] at hr
  rcases hr with (((⟨_, _, rfl⟩ | ⟨_, _, rfl⟩) | ⟨_, _, rfl⟩) | ⟨_, _, rfl⟩) | ⟨_, _, rfl⟩ <;>
    exact ResourceKind.noConfusion

theorem counts_released (whole : Bool) {r : Resource} (hr : r ∈ m.released) : Counts whole r := fun h =>
  absurd h (kind_released hr)

/-- A change of the members: `dropped` is no longer released, `new` is created, and `kept` is released from now on. -/
structure Change (m m' : Members) (dropped new kept : List Resource) : Prop where
  created : m'.created = m.created ++ new
  released : (m.released ++ kept).Perm (m'.released ++ dropped)
  dropped_released : ∀ r ∈ dropped, r ∈ m.released
  kept_new : ∀ r ∈ kept, r ∈ new
  kept_nodup : kept.Nodup
  id_eq : ∀ r ∈ new, r.id = m.next

namespace Change

theorem ledger (hm : m.Sound) (h : Change m m' dropped new kept) : m.ledger.Change m'.ledger dropped new kept where
  created := h.created
  owned := h.released
  dropped_owned := h.dropped_released
  kept_new := h.kept_new
  kept_nodup := h.kept_nodup
  fresh r hr hold := (hm.id_lt r hold).ne (h.id_eq r hr)

theorem sound (hm : m.Sound) (h : Change m m' dropped new kept) : m'.Sound where
  ledger := (h.ledger hm).sound hm.ledger
  id_lt r hr := by
    have hnext : m'.next = m.next + new.length := by rw [next, h.created, List.length_append, next]
    rw [h.created] at hr
    rcases List.mem_append.mp hr with hold | hnew
    · have := hm.id_lt r hold
      omega
    · have := List.length_pos_of_mem hnew
      have := h.id_eq r hnew
      omega

theorem settled_iff (hm : m.Sound) (h : Change m m' dropped new kept) :
    m'.Settled whole ↔ m.Settled whole ∧ dropped = [] ∧ ∀ r ∈ new, Counts whole r → r ∈ kept :=
  (h.ledger hm).settled_iff hm.ledger fun _ hr => counts_released whole hr

end Change

/-! ## One handle -/

/-- `push` stores a handle of kind `k`. -/
structure Stores (k : ResourceKind) (push : ℕ → Members → Members) : Prop where
  created : ∀ handle m, (push handle m).created = m.created
  released : ∀ handle m, (push handle m).released.Perm (m.released ++ [⟨k, handle⟩])
  captureBuffer : ∀ handle m, (push handle m).captureBuffer = m.captureBuffer
  channelsPtr : ∀ handle m, (push handle m).channelsPtr = m.channelsPtr

theorem stores_pushAgc : Stores .agc pushAgc where
  created _ _ := rfl
  released handle m := by
    rw [List.perm_iff_count]
    intro r
    simp only [released, pushAgc, List.map_append, List.count_append, List.map_cons, List.map_nil]
    omega
  captureBuffer _ _ := rfl
  channelsPtr _ _ := rfl

theorem stores_pushNs : Stores .ns pushNs where
  created _ _ := rfl
  released handle m := by
    rw [List.perm_iff_count]
    intro r
    simp only [released, pushNs, List.map_append, List.count_append, List.map_cons, List.map_nil]
    omega
  captureBuffer _ _ := rfl
  channelsPtr _ _ := rfl

theorem stores_pushRnnoise : Stores .rnnoise pushRnnoise where
  created _ _ := rfl
  released handle m := by
    rw [List.perm_iff_count]
    intro r
    simp only [released, pushRnnoise, List.map_append, List.count_append, List.map_cons, List.map_nil]
    omega
  captureBuffer _ _ := rfl
  channelsPtr _ _ := rfl

/-- The invariant of the loops over the channels. -/
structure Looping (buffer array : Option ℕ) (m : Members) : Prop where
  sound : m.Sound
  buffer : m.captureBuffer = buffer
  array : m.channelsPtr = array

/-- A handle gets ready. -/
def Ready (create init configure : Bool) : Prop := create ∧ init ∧ configure

/-- A handle gets ready if it is created. -/
def NotLost (create init configure : Bool) : Prop := create → init ∧ configure

theorem create_change (m : Members) (k : ResourceKind) : Change m (m.create k) [] [⟨k, m.next⟩] [] where
  created := rfl
  released := List.Perm.refl _
  dropped_released r hr := absurd hr List.not_mem_nil
  kept_new r hr := absurd hr List.not_mem_nil
  kept_nodup := List.nodup_nil
  id_eq r hr := by rw [List.mem_singleton.mp hr]

theorem create_push_change (m : Members) {k : ResourceKind} {push : ℕ → Members → Members} (hpush : Stores k push) :
    Change m (push m.next (m.create k)) [] [⟨k, m.next⟩] [⟨k, m.next⟩] where
  created := hpush.created m.next (m.create k)
  released := by
    rw [List.append_nil]
    exact (hpush.released m.next (m.create k)).symm
  dropped_released r hr := absurd hr List.not_mem_nil
  kept_new r hr := hr
  kept_nodup := List.nodup_singleton _
  id_eq r hr := by rw [List.mem_singleton.mp hr]

/-- A handle that is created and not stored. -/
theorem not_settled_create (hm : m.Sound) {k : ResourceKind} (hk : k ≠ .audioBufferData) :
    ¬ (m.create k).Settled whole := by
  rw [(create_change m k).settled_iff hm]
  rintro ⟨-, -, hlost⟩
  exact absurd (hlost ⟨k, m.next⟩ (List.mem_singleton.mpr rfl) fun h => absurd h hk) List.not_mem_nil

/-- A handle that is created and stored. -/
theorem settled_create_push (hm : m.Sound) {k : ResourceKind} {push : ℕ → Members → Members} (hpush : Stores k push) :
    (push m.next (m.create k)).Settled whole ↔ m.Settled whole := by
  rw [(create_push_change m hpush).settled_iff hm]
  exact and_iff_left ⟨rfl, fun r hr _ => hr⟩

/-- **A handle is lost** where it is created and then does not get ready. -/
theorem addHandle_keeps {k : ResourceKind} (hk : k ≠ .audioBufferData) {push : ℕ → Members → Members}
    (hpush : Stores k push) (buffer array : Option ℕ) (create init configure : Bool) :
    Keeps (Looping buffer array) (Settled whole) (Ready create init configure) (NotLost create init configure)
      (addHandle k create init configure push) := by
  have hstored : ∀ m : Members, Looping buffer array m → Looping buffer array (push m.next (m.create k)) :=
    fun m hm => ⟨(create_push_change m hpush).sound hm.sound, (hpush.captureBuffer _ _).trans hm.buffer,
      (hpush.channelsPtr _ _).trans hm.array⟩
  have hcreated : ∀ m : Members, Looping buffer array m → Looping buffer array (m.create k) :=
    fun m hm => ⟨(create_change m k).sound hm.sound, hm.buffer, hm.array⟩
  have hlost : ∀ m : Members, Looping buffer array m → ((m.create k).Settled whole ↔ m.Settled whole ∧ False) :=
    fun m hm => iff_of_false (not_settled_create hm.sound hk) And.right
  unfold Ready NotLost
  cases create with
  | false => exact ⟨fun _ _ => by simp [addHandle], fun _ hm => hm, fun _ _ => by simp [addHandle]⟩
  | true =>
      cases init with
      | false =>
          refine ⟨fun _ _ => by simp [addHandle], hcreated, fun m hm => ?_⟩
          exact (hlost m hm).trans (by simp)
      | true =>
          cases configure with
          | false =>
              refine ⟨fun _ _ => by simp [addHandle], hcreated, fun m hm => ?_⟩
              exact (hlost m hm).trans (by simp)
          | true =>
              refine ⟨fun _ _ => by simp [addHandle], hstored, fun m hm => ?_⟩
              exact (settled_create_push hm.sound hpush).trans (by simp)

/-! ## The loops over the channels -/

section Channels

variable (o : Outcomes) (doAgc : Bool) (i : ℕ)

/-- The gain control of channel `i` gets ready, if there is gain control. -/
def AgcReady : Prop := doAgc → Ready (o.agcCreate i) (o.agcInit i) (o.agcSetConfig i)

/-- The gain control of channel `i` is not lost, if there is gain control. -/
def AgcNotLost : Prop := doAgc → NotLost (o.agcCreate i) (o.agcInit i) (o.agcSetConfig i)

/-- The noise suppression of channel `i` gets ready. -/
def NsReady : Prop := Ready (o.nsCreate i) (o.nsInit i) (o.nsSetPolicy i)

/-- The noise suppression of channel `i` is not lost. -/
def NsNotLost : Prop := NotLost (o.nsCreate i) (o.nsInit i) (o.nsSetPolicy i)

end Channels

/-- **The loop over the channels**, for both init functions. -/
theorem initChannels_keep (whole : Bool) (o : Outcomes) (doAgc : Bool) (n : ℕ) {buffer array : Option ℕ}
    {ok clean : ℕ → Prop} {add : ℕ → Members → Bool × Members}
    (hadd : ∀ i, Keeps (Looping buffer array) (Settled whole) (ok i) (clean i) (add i)) :
    Keeps (Looping buffer array) (Settled whole) (∀ i < n, AgcReady o doAgc i ∧ ok i)
      (∀ i < n, (∀ j < i, AgcReady o doAgc j ∧ ok j) → AgcNotLost o doAgc i ∧ (AgcReady o doAgc i → clean i))
      fun m => forLoop 0 n (initChannel o doAgc add) (true, m) :=
  Keeps.loop n fun i =>
    ((addHandle_keeps ResourceKind.noConfusion stores_pushAgc buffer array _ _ _).when doAgc).seq (hadd i)

theorem addNs_keeps (o : Outcomes) (buffer array : Option ℕ) (i : ℕ) :
    Keeps (Looping buffer array) (Settled whole) (NsReady o i) (NsNotLost o i) (addNs o i) :=
  addHandle_keeps ResourceKind.noConfusion stores_pushNs buffer array _ _ _

theorem addRnnoise_keeps (buffer array : Option ℕ) :
    Keeps (Looping buffer array) (Settled whole) True True addRnnoise :=
  (addHandle_keeps ResourceKind.noConfusion stores_pushRnnoise buffer array true true true).congr
    (by simp [Ready]) (by simp [NotLost])

/-! ## The other members -/

theorem clear_change (m : Members) (doAgc : Bool) : Change m (m.clear doAgc)
    (m.nsHandles.map (Resource.mk .ns) ++ if doAgc then m.agcHandles.map (Resource.mk .agc) else []) [] [] where
  created := by cases doAgc <;> exact (List.append_nil _).symm
  released := by
    rw [List.perm_iff_count]
    intro r
    cases doAgc <;>
      · simp only [released, clear, List.map_nil, List.append_nil, List.nil_append, List.count_append, if_true,
          Bool.false_eq_true, if_false]
        omega
  dropped_released r hr := by
    rw [List.mem_append] at hr
    simp only [released, List.mem_append]
    rcases hr with hns | hagc
    · tauto
    · cases doAgc with
      | false => exact absurd hagc List.not_mem_nil
      | true =>
          rw [if_pos rfl] at hagc
          tauto
  kept_new r hr := hr
  kept_nodup := List.nodup_nil
  id_eq r hr := absurd hr List.not_mem_nil

theorem setBuffer_change (m : Members) : Change m m.setBuffer (m.captureBuffer.toList.map (Resource.mk .audioBuffer))
    [⟨.audioBuffer, m.next⟩, ⟨.audioBufferData, m.next⟩] [⟨.audioBuffer, m.next⟩] where
  created := rfl
  released := by
    rw [List.perm_iff_count]
    intro r
    simp only [released, setBuffer, Option.toList_some, List.map_cons, List.map_nil, List.count_append]
    omega
  dropped_released r hr := by
    simp only [released, List.mem_append]
    tauto
  kept_new r hr := List.mem_cons.mpr (Or.inl (List.mem_singleton.mp hr))
  kept_nodup := List.nodup_singleton _
  id_eq r hr := by
    rcases List.mem_pair.mp hr with rfl | rfl <;> rfl

theorem setChannelsPtr_change (m : Members) : Change m m.setChannelsPtr
    (m.channelsPtr.toList.map (Resource.mk .channelsPtr)) [⟨.channelsPtr, m.next⟩] [⟨.channelsPtr, m.next⟩] where
  created := rfl
  released := by
    rw [List.perm_iff_count]
    intro r
    simp only [released, setChannelsPtr, create, Option.toList_some, List.map_cons, List.map_nil, List.count_append]
    omega
  dropped_released r hr := by
    simp only [released, List.mem_append]
    tauto
  kept_new r hr := hr
  kept_nodup := List.nodup_singleton _
  id_eq r hr := by rw [List.mem_singleton.mp hr]

/-- Clearing a vector loses the handles in it. -/
theorem settled_clear (hm : m.Sound) (doAgc : Bool) : (m.clear doAgc).Settled whole ↔
    m.Settled whole ∧ m.nsHandles = [] ∧ (doAgc → m.agcHandles = []) := by
  rw [(clear_change m doAgc).settled_iff hm]
  cases doAgc <;> simp

/-- A second capture buffer loses the first, and each loses what it allocates. -/
theorem settled_setBuffer (hm : m.Sound) :
    m.setBuffer.Settled whole ↔ m.Settled whole ∧ m.captureBuffer = none ∧ whole = false := by
  rw [(setBuffer_change m).settled_iff hm]
  refine and_congr_right' (and_congr ?_ ?_)
  · simp
  · simp [Counts]

/-- A second array of pointers loses the first. -/
theorem settled_setChannelsPtr (whole : Bool) (hm : m.Sound) :
    m.setChannelsPtr.Settled whole ↔ m.Settled whole ∧ m.channelsPtr = none := by
  rw [(setChannelsPtr_change m).settled_iff hm]
  refine and_congr_right' ?_
  simp

/-! ## Careful calls -/

/-- A new capture buffer neither overflows the sizes nor loses anything. -/
def BufferCareful (whole : Bool) (o : Outcomes) (frames channels : ℤ) : Prop :=
  newAudioBuffer o.newBuffer frames channels ≠ .error .undefined ∧
    (newAudioBuffer o.newBuffer frames channels = .ok () → whole = false)

/-- An `initNsModule` that loses nothing: it has no handles to clear, no handle fails once it is created, and the
capture buffer and the array of pointers are the first. -/
def NsCareful (whole : Bool) (o : Outcomes) (m : Members) (frames channels : ℤ) (doAgc : Bool) : Prop :=
  0 ≤ channels →
    (m.nsHandles = [] ∧ (doAgc → m.agcHandles = [])) ∧
    (∀ i < channels.toNat, (∀ j < i, AgcReady o doAgc j ∧ NsReady o j) →
      AgcNotLost o doAgc i ∧ (AgcReady o doAgc i → NsNotLost o i)) ∧
    ((∀ i < channels.toNat, AgcReady o doAgc i ∧ NsReady o i) →
      BufferCareful whole o frames channels ∧
        (newAudioBuffer o.newBuffer frames channels = .ok () →
          m.captureBuffer = none ∧ (o.newChannelsPtr → m.channelsPtr = none)))

/-- An `initRnnoiseModule` that loses nothing. -/
def RnnoiseCareful (whole : Bool) (o : Outcomes) (m : Members) (frequency : ℕ) (frames channels : ℤ) (doAgc : Bool) :
    Prop :=
  frequency = 48000 → frames = 480 →
    (m.captureBuffer = none → BufferCareful whole o frames channels) ∧
    (m.captureBuffer.isSome ∨ newAudioBuffer o.newBuffer frames channels = .ok () →
      ∀ i < channels.toNat, (∀ j < i, AgcReady o doAgc j) → AgcNotLost o doAgc i)

/-- How an init call ends: with an object that is sound, and settled exactly if `m` was and `careful`. -/
structure Ends (whole : Bool) (m : Members) (careful : Prop) (r : Except Abort Bool × Members) : Prop where
  sound : r.2.Sound
  settled_iff : r.1 ≠ .error .undefined ∧ r.2.Settled whole ↔ m.Settled whole ∧ careful

section Calls

variable {o : Outcomes} {frames channels : ℤ} {careful careful' : Prop} {r : Except Abort Bool × Members}

theorem Ends.return (hm : m.Sound) (ok : Bool) : Ends whole m True (.ok ok, m) := ⟨hm, by simp⟩

theorem Ends.throw (hm : m.Sound) (e : Abort) : Ends whole m (e ≠ .undefined) (.error e, m) :=
  ⟨hm, by simp [and_comm]⟩

theorem Ends.congr (h : Ends whole m careful r) (hcareful : careful ↔ careful') : Ends whole m careful' r :=
  ⟨h.sound, h.settled_iff.trans (and_congr_right' hcareful)⟩

/-- What comes before the end of a call. -/
theorem Ends.after (hm' : m'.Settled whole ↔ m.Settled whole ∧ careful) (h : Ends whole m' careful' r) :
    Ends whole m (careful ∧ careful') r :=
  ⟨h.sound, by rw [h.settled_iff, hm', and_assoc]⟩

/-- The end of `initNsModule`. -/
theorem newMembers_end (whole : Bool) (hm : m.Sound) (o : Outcomes) (frames channels : ℤ) :
    Ends whole m
      (BufferCareful whole o frames channels ∧ (newAudioBuffer o.newBuffer frames channels = .ok () →
        m.captureBuffer = none ∧ (o.newChannelsPtr → m.channelsPtr = none)))
      (match newAudioBuffer o.newBuffer frames channels with
        | .error e => (.error e, m)
        | .ok () =>
            let m := m.setBuffer
            if ¬ o.newChannelsPtr then (.error .threw, m) else (.ok true, m.setChannelsPtr)) := by
  unfold BufferCareful
  cases newAudioBuffer o.newBuffer frames channels with
  | error e => exact (Ends.throw hm e).congr (by simp)
  | ok u =>
      have hbuffer := (setBuffer_change m).sound hm
      have harray := (setChannelsPtr_change m.setBuffer).sound hbuffer
      cases hptr : o.newChannelsPtr with
      | false =>
          refine (Ends.after (settled_setBuffer hm) (Ends.throw hbuffer .threw)).congr ?_
          simp [and_comm]
      | true =>
          have hsettled := (settled_setChannelsPtr whole hbuffer).trans
            (and_congr_left' (settled_setBuffer hm))
          rw [and_assoc] at hsettled
          refine (Ends.after hsettled (Ends.return harray true)).congr ?_
          simp only [setBuffer]
          tauto

theorem initNsModule_ends (whole : Bool) (hm : m.Sound) (o : Outcomes) (frames channels : ℤ) (doAgc : Bool) :
    Ends whole m (NsCareful whole o m frames channels doAgc) (m.initNsModule o frames channels doAgc) := by
  unfold initNsModule NsCareful
  by_cases hneg : channels < 0
  · rw [if_pos hneg]
    exact (Ends.return hm false).congr (by simp [hneg.not_ge])
  · rw [if_neg hneg, forall_prop_of_true (not_lt.mp hneg)]
    have hclear : Looping m.captureBuffer m.channelsPtr (m.clear doAgc) :=
      ⟨(clear_change m doAgc).sound hm, by cases doAgc <;> rfl, by cases doAgc <;> rfl⟩
    have hloop := initChannels_keep whole o doAgc channels.toNat fun i =>
      addNs_keeps o m.captureBuffer m.channelsPtr i
    have hok := hloop.goes_on _ hclear
    have hinv := hloop.inv _ hclear
    have hsettled := hloop.iff_clean _ hclear
    rw [settled_clear hm, and_assoc] at hsettled
    simp only at hok hinv hsettled ⊢
    generalize forLoop 0 channels.toNat (initChannel o doAgc (addNs o)) (true, m.clear doAgc) = r at hok hinv hsettled ⊢
    obtain ⟨ok, m'⟩ := r
    cases ok with
    | false =>
        refine (Ends.after hsettled (Ends.return hinv.sound false)).congr ?_
        have hstop := hok.not.mp Bool.false_ne_true
        tauto
    | true =>
        have hgo := hok.mp rfl
        have hend := newMembers_end whole hinv.sound o frames channels
        rw [hinv.buffer, hinv.array] at hend
        refine (Ends.after hsettled hend).congr ?_
        rw [forall_prop_of_true hgo, and_assoc]

/-- The loop of `initRnnoiseModule`. -/
theorem initRnnoiseLoop_end (whole : Bool) (hm : m.Sound) (o : Outcomes) (n : ℕ) (doAgc : Bool) :
    Ends whole m (∀ i < n, (∀ j < i, AgcReady o doAgc j) → AgcNotLost o doAgc i)
      (let r := forLoop 0 n (initChannel o doAgc fun _ => addRnnoise) (true, m)
      (.ok r.1, r.2)) := by
  have hloop := initChannels_keep whole o doAgc n fun _ => addRnnoise_keeps m.captureBuffer m.channelsPtr
  have hstart : Looping m.captureBuffer m.channelsPtr m := ⟨hm, rfl, rfl⟩
  refine ⟨(hloop.inv m hstart).sound, ?_⟩
  have hsettled := hloop.iff_clean m hstart
  simp only [and_true, implies_true] at hsettled
  rw [← hsettled]
  simp

theorem initRnnoiseModule_ends (whole : Bool) (hm : m.Sound) (o : Outcomes) (frequency : ℕ) (frames channels : ℤ)
    (doAgc : Bool) : Ends whole m (RnnoiseCareful whole o m frequency frames channels doAgc)
      (m.initRnnoiseModule o frequency frames channels doAgc) := by
  unfold initRnnoiseModule RnnoiseCareful
  split_ifs with hbad
  · exact (Ends.return hm false).congr (by tauto)
  · obtain ⟨hfrequency, hframes⟩ := not_or.mp hbad
    rw [forall_prop_of_true (not_not.mp hfrequency), forall_prop_of_true (not_not.mp hframes)]
    unfold rnnoiseBuffer
    cases hbuffer : m.captureBuffer with
    | some b =>
        refine (initRnnoiseLoop_end whole hm o channels.toNat doAgc).congr ?_
        simp
    | none =>
        unfold BufferCareful
        cases newAudioBuffer o.newBuffer frames channels with
        | error e => exact (Ends.throw hm e).congr (by simp)
        | ok u =>
            have hloop := initRnnoiseLoop_end whole ((setBuffer_change m).sound hm) o channels.toNat doAgc
            refine (Ends.after (settled_setBuffer hm) hloop).congr ?_
            simp [hbuffer]

end Calls

end Members

/-! ## Runs -/

open Members

/-- **What the destructor should do**: there is an object, and everything that was created is released exactly once.
With `whole`, that is said of what an `AudioBuffer` allocates, too. -/
def ReleasedOnce (whole : Bool) (s : Option Members) : Prop :=
  ∃ m ∈ s, ∀ r ∈ m.created, Counts whole r → m.released.count r = 1

/-- A call that loses nothing. -/
def Careful (whole : Bool) (m : Members) : OwnerCall → Prop
  | .init o (.ns _ _ frames channels doAgc) => NsCareful whole o m frames channels doAgc
  | .init o (.rnnoise frequency frames channels doAgc) => RnnoiseCareful whole o m frequency frames channels doAgc
  | .process defined => defined

variable {m : Members} {whole : Bool}

theorem releasedOnce_some (hm : m.Sound) : ReleasedOnce whole (some m) ↔ m.Settled whole := by
  unfold Members.Settled
  rw [hm.ledger.settled_iff_count]
  simp [ReleasedOnce, Members.ledger]

/-- The invariant of runs. -/
def SoundObject (s : Option Members) : Prop := ∀ m ∈ s, m.Sound

theorem init_ends (whole : Bool) (hm : m.Sound) (o : Outcomes) (a : InitCall) :
    Ends whole m (Careful whole m (.init o a)) (m.init o a) := by
  cases a with
  | ns _ _ frames channels doAgc => exact initNsModule_ends whole hm o frames channels doAgc
  | rnnoise frequency frames channels doAgc => exact initRnnoiseModule_ends whole hm o frequency frames channels doAgc

/-- An object is left unless the behaviour is undefined. -/
theorem afterInit_cases (r : Except Abort Bool × Members) :
    r.1 = .error .undefined ∧ afterInit r = none ∨ r.1 ≠ .error .undefined ∧ afterInit r = some r.2 := by
  obtain ⟨answer, m⟩ := r
  cases answer with
  | ok ok => exact Or.inr ⟨by simp, rfl⟩
  | error e =>
      cases e with
      | threw => exact Or.inr ⟨by simp, rfl⟩
      | undefined => exact Or.inl ⟨rfl, rfl⟩

theorem not_releasedOnce_none : ¬ ReleasedOnce whole none := fun ⟨_, hm, _⟩ => Option.not_mem_none _ hm

theorem ownerStep_sound {s : Option Members} (hs : SoundObject s) (c : OwnerCall) : SoundObject (ownerStep s c) := by
  cases s with
  | none => cases c <;> simp [ownerStep, SoundObject]
  | some m =>
      have hm : m.Sound := hs m rfl
      cases c with
      | process defined => cases defined <;> simp [ownerStep, SoundObject, hm]
      | init o a =>
          rintro m' (hm' : afterInit (m.init o a) = some m')
          rcases afterInit_cases (m.init o a) with ⟨-, hnone⟩ | ⟨-, hsome⟩
          · rw [hnone] at hm'
            cases hm'
          · rw [hsome] at hm'
            obtain rfl := Option.some.inj hm'
            exact (init_ends false hm o a).sound

/-- **A call keeps everything released once exactly if it loses nothing.** -/
theorem releasedOnce_ownerStep {s : Option Members} (hs : SoundObject s) (c : OwnerCall) :
    ReleasedOnce whole (ownerStep s c) ↔ ReleasedOnce whole s ∧ ∀ m ∈ s, Careful whole m c := by
  cases s with
  | none =>
      have hstep : ownerStep none c = none := by cases c <;> simp [ownerStep]
      rw [hstep]
      exact iff_of_false not_releasedOnce_none fun h => not_releasedOnce_none h.1
  | some m =>
      have hm : m.Sound := hs m rfl
      have hcareful : (∀ m' ∈ some m, Careful whole m' c) ↔ Careful whole m c := by simp
      rw [hcareful, releasedOnce_some hm]
      cases c with
      | process defined =>
          cases defined with
          | false => exact iff_of_false not_releasedOnce_none fun h => Bool.false_ne_true h.2
          | true => exact (releasedOnce_some hm).trans (and_iff_left rfl).symm
      | init o a =>
          have hends := init_ends whole hm o a
          rw [← hends.settled_iff]
          show ReleasedOnce whole (afterInit (m.init o a)) ↔ _
          rcases afterInit_cases (m.init o a) with ⟨hundefined, hnone⟩ | ⟨hdefined, hsome⟩
          · rw [hnone]
            exact iff_of_false not_releasedOnce_none fun h => h.1 hundefined
          · rw [hsome, releasedOnce_some hends.sound]
            exact (and_iff_right hdefined).symm

theorem soundObject_new : SoundObject (some .new) := by
  intro m hm
  obtain rfl := Option.some.inj hm
  exact ⟨⟨List.nodup_nil, fun _ hr => absurd hr List.not_mem_nil⟩, fun _ hr => absurd hr List.not_mem_nil⟩

/-- **Nothing is released twice**, and nothing that was not created, whatever the calls. -/
theorem released_nodup (calls : List OwnerCall) : ∀ m ∈ Runs.run ownerStep (some .new) calls,
    m.released.Nodup ∧ ∀ r ∈ m.released, r ∈ m.created := by
  intro m hm
  have hrun : SoundObject (Runs.run ownerStep (some .new) calls) :=
    Runs.run_induction soundObject_new fun s c _ hs => ownerStep_sound hs c
  have hm := (hrun m hm).ledger
  exact ⟨hm.nodup, hm.created⟩

/-- **Everything is released once after a sequence of calls exactly if none of them loses anything.** -/
theorem releasedOnce_iff (whole : Bool) (calls : List OwnerCall) :
    ReleasedOnce whole (Runs.run ownerStep (some .new) calls) ↔
      Runs.EachStep ownerStep (fun s c => ∀ m ∈ s, Careful whole m c) (some .new) calls := by
  have hstart : ReleasedOnce whole (some .new) := ⟨.new, rfl, fun r hr => absurd hr List.not_mem_nil⟩
  rw [Runs.run_iff_eachStep (fun s c hs => ownerStep_sound hs c) (fun s c hs => releasedOnce_ownerStep hs c)
    soundObject_new]
  exact and_iff_right hstart

/-- Every call succeeds. -/
def Outcomes.all : Outcomes where
  agcCreate _ := true
  agcInit _ := true
  agcSetConfig _ := true
  nsCreate _ := true
  nsInit _ := true
  nsSetPolicy _ := true
  newBuffer := true
  newChannelsPtr := true

-- One init of two channels with gain control, and a process call.
example : ReleasedOnce false (Runs.run ownerStep (some .new) [.init .all (.ns 16000 1 160 2 true), .process true]) :=
  ⟨_, rfl, by decide⟩

/-- At a rate that `WebRtcNs_Init` does not know, the handle it was to set up is never released. -/
theorem not_releasedOnce_badRate : ¬ ∀ calls, ReleasedOnce false (Runs.run ownerStep (some .new) calls) := by
  intro h
  let o : Outcomes := { Outcomes.all with nsInit := fun _ => false }
  obtain ⟨m, hm, hcount⟩ := h [.init o (.ns 44100 1 441 1 false)]
  have hmembers : m = ⟨[], [], [], none, none, [⟨.ns, 0⟩]⟩ := (Option.some.inj hm).symm
  subst hmembers
  exact absurd (hcount ⟨.ns, 0⟩ (List.mem_singleton.mpr rfl) ResourceKind.noConfusion) (by decide)

end AudioProcess
