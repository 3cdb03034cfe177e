import AudioProcess.FramesQueue.Fifo

/-!
# Failing allocations

When its slot's block is too small, `frames_queue_push` frees it before it asks for a larger one; if that
fails, the slot has no block but keeps the old size.

* `OwnsBlock`, `Sound`: every slot's size is that of the block it owns, and every copy so far went into
  a block that is large enough;
* `Harmless`: a push whose allocation fails is as good as not made;
* **`sound_iff`**: over a run both hold throughout exactly when no allocation fails at a slot that has
  a size already.
-/

namespace AudioProcess

open CHeap Mem Runs

/-- The size of the slot `f` is that of the block it owns, `0` if it owns none. The code compares the
size as an `unsigned int`. -/
def OwnsBlock (h : Heap) (f : Aframe) : Prop :=
  match f.data with
  | none => f.size = 0
  | some p => ∃ b, h.block p = some b ∧ b.size = f.size.toUInt32.toNat

/-- Every slot owns its block, and no `memcpy` has left the block it writes to. -/
def Sound (N : ℕ) (r : QueueRun) : Prop :=
  r.heap.fault = false ∧ ∀ i < N, OwnsBlock r.heap (r.queue.frames i)

/-- What the caller sees of a call: the returned value and, from a pop, the bytes behind `*buf`; `none`
where the program has no defined behaviour. -/
def queueReply (r : QueueRun) (c : QueueCall) : Option (ℤ × Option (Option (List UInt8))) :=
  if (queueStep r c).heap.fault then none
  else match c with
  | .push malloc buf size => some ((framesQueuePush malloc r.heap r.queue buf size).2.2, none)
  | .pop => some ((framesQueuePop r.queue).2.1,
      (framesQueuePop r.queue).2.2.map fun o => r.heap.bytes o.1 o.2.toNat)

/-- What the caller sees of the calls `later`. -/
def replies (r : QueueRun) (later : List QueueCall) : List (Option (ℤ × Option (Option (List UInt8)))) :=
  outputs (fun r c => (queueReply r c, queueStep r c)) r later

/-- The call is a push that returns `-1` because its allocation fails. -/
def FailsMalloc (r : QueueRun) : QueueCall → Prop
  | .push malloc buf size => r.heap.fault = false ∧ malloc = none ∧ buf ≠ none ∧ size ≠ 0 ∧
      r.queue.tailFrame.ready = false ∧ r.queue.tailFrame.size.toUInt32 < size
  | .pop => False

/-- A push whose allocation fails changes neither the pending frames nor the outcome of any later call. -/
def Harmless (r : QueueRun) (c : QueueCall) : Prop :=
  FailsMalloc r c → (queueStep r c).pending = r.pending ∧
    ∀ later, replies (queueStep r c) later = replies r later

/-- The allocation of a push fails while its slot has a size. -/
def DropsBlock (r : QueueRun) (c : QueueCall) : Prop :=
  FailsMalloc r c ∧ r.queue.tailFrame.size ≠ 0

/-- No slot owns an empty block. -/
def NoEmpty (N : ℕ) (q : FramesQueue) : Prop := ∀ i < N, ∀ p, (q.frames i).data = some p → (q.frames i).size ≠ 0

/-- The invariant of runs in which no block is dropped. -/
structure OwnInv (N : ℕ) (r : QueueRun) : Prop extends FullInv N r where
  noEmpty : NoEmpty N r.queue

section Push

variable {N : ℕ} {h : Heap} {q : FramesQueue}

theorem NoEmpty.congr {q' : FramesQueue} (hn : NoEmpty N q)
    (hframes : ∀ i, (q'.frames i).data = (q.frames i).data ∧ (q'.frames i).size = (q.frames i).size) :
    NoEmpty N q' := by
  intro i hi p hp
  rw [(hframes i).1] at hp
  rw [(hframes i).2]
  exact hn i hi p hp

theorem NoEmpty.grow (hn : NoEmpty N q) (junk : ℕ → UInt8) {size : UInt32} (h₀ : size ≠ 0) :
    NoEmpty N (growSlot (some junk) h q size).2.1 := by
  unfold growSlot
  by_cases hs : q.tailFrame.size.toUInt32 < size
  · simp only [if_pos hs]
    intro i hi p hp
    by_cases e : i = q.indexTail
    · subst e
      rw [show ∀ f, (q.setTail f).frames q.indexTail = f from QueueInv.setTail_tailFrame q]
      intro hz
      have hz : size.toInt32.toUInt32 = (0 : Int32).toUInt32 := congrArg Int32.toUInt32 hz
      exact h₀ hz
    · rw [QueueInv.setTail_frames_ne _ _ e] at hp ⊢
      exact hn i hi p hp
  · simp only [if_neg hs]
    exact hn

theorem NoEmpty.push (hn : NoEmpty N q) (junk : ℕ → UInt8) (buf : Option (ℕ → UInt8)) (size : UInt32) :
    NoEmpty N (framesQueuePush (some junk) h q buf size).2.1 := by
  cases buf with
  | none => exact hn
  | some src =>
    simp only [framesQueuePush]
    split_ifs with hs hok
    · exact hn
    · push Not at hs
      exact (hn.grow junk hs.1).congr fun i => storeFrame_data h _ src size i
    · push Not at hs
      exact hn.grow junk hs.1

/-- Where the slot's block is large enough, the outcome of the allocation does not matter. -/
theorem framesQueuePush_malloc_eq {size : UInt32} (hs : ¬ q.tailFrame.size.toUInt32 < size)
    (malloc malloc' : Option (ℕ → UInt8)) (buf : Option (ℕ → UInt8)) :
    framesQueuePush malloc h q buf size = framesQueuePush malloc' h q buf size := by
  have hgrow : ∀ m, growSlot m h q size = (h, q, true) := fun m => by
    simp only [growSlot, if_neg hs]
  cases buf with
  | none => rfl
  | some src => simp only [framesQueuePush, hgrow]

/-- A failed allocation frees the slot's block. -/
theorem framesQueuePush_fails (h : Heap) (src : ℕ → UInt8) {size : UInt32} (h₀ : size ≠ 0)
    (hr : q.tailFrame.ready = false) (hs : q.tailFrame.size.toUInt32 < size) :
    framesQueuePush none h q (some src) size =
      (q.tailFrame.data.elim h h.free, q.setTail { q.tailFrame with data := none }, -1) := by
  have hgrow : growSlot none h q size =
      (q.tailFrame.data.elim h h.free, q.setTail { q.tailFrame with data := none }, false) := by
    simp only [growSlot, if_pos hs]
  simp only [framesQueuePush]
  rw [if_neg (by simp [h₀, hr]), hgrow, if_neg Bool.false_ne_true]

theorem setTail_of_none (hd : q.tailFrame.data = none) : q.setTail { q.tailFrame with data := none } = q := by
  have hf : ({ q.tailFrame with data := none } : Aframe) = q.tailFrame := by rw [← hd]
  rw [hf, FramesQueue.setTail, FramesQueue.tailFrame, Function.update_eq_self]

end Push

section Runs

variable {N : ℕ} {r : QueueRun}

theorem OwnInv.start (hN : 0 < N) {h : Heap} (hf : h.fault = false) (junk : ℕ → Aframe) :
    OwnInv N (queueStart h junk N) where
  toFullInv := FullInv.start hN hf junk
  noEmpty i hi p hp := by simp [queueStart, framesQueueCreate, hi] at hp

theorem OwnInv.sound (hr : OwnInv N r) : Sound N r := by
  refine ⟨hr.noFault, fun i hi => ?_⟩
  unfold OwnsBlock
  split
  · exact hr.noNull i hi ‹_›
  · exact hr.queue.owned i hi _ ‹_›

theorem OwnInv.pop (hr : OwnInv N r) : OwnInv N (queueStep r .pop) where
  toFullInv := hr.toFullInv.pop.2
  noEmpty := by
    simp only [queueStep, hr.noFault]
    exact hr.noEmpty.congr fun i => framesQueuePop_data ..

theorem OwnInv.push_some (hr : OwnInv N r) (junk : ℕ → UInt8) (buf : Option (ℕ → UInt8)) (size : UInt32) :
    OwnInv N (queueStep r (.push (some junk) buf size)) where
  toFullInv := (hr.toFullInv.push junk buf size).2
  noEmpty := by
    simp only [queueStep, hr.noFault]
    exact hr.noEmpty.push junk buf size

/-- At a slot without a size a failed allocation changes nothing. -/
theorem OwnInv.step_eq_self (hr : OwnInv N r) {c : QueueCall} (hc : FailsMalloc r c)
    (hsize : r.queue.tailFrame.size = 0) : queueStep r c = r := by
  cases c with
  | pop => exact hc.elim
  | push malloc buf size =>
    obtain ⟨hf, rfl, hbuf, h₀, hready, hs⟩ := hc
    obtain ⟨src, rfl⟩ := Option.ne_none_iff_exists'.mp hbuf
    have hd : r.queue.tailFrame.data = none := by
      cases hd : r.queue.tailFrame.data with
      | none => rfl
      | some p => exact absurd hsize (hr.noEmpty _ hr.queue.tail_lt p hd)
    have hpush := framesQueuePush_fails r.heap src h₀ hready hs
    rw [setTail_of_none hd, hd] at hpush
    simp only [queueStep, hf, hpush]
    simp

/-- A push that does not fail at its allocation is one whose allocation succeeds. -/
theorem OwnInv.push (hr : OwnInv N r) (malloc buf : Option (ℕ → UInt8)) (size : UInt32)
    (hc : ¬ FailsMalloc r (.push malloc buf size)) : OwnInv N (queueStep r (.push malloc buf size)) := by
  cases malloc with
  | some junk => exact hr.push_some junk buf size
  | none =>
    by_cases hs : r.queue.tailFrame.size.toUInt32 < size
    · have hrejected : framesQueuePush none r.heap r.queue buf size = (r.heap, r.queue, -1) := by
        cases buf with
        | none => rfl
        | some src =>
          have : size = 0 ∨ r.queue.tailFrame.ready = true := by
            by_contra hne
            push Not at hne
            exact hc ⟨hr.noFault, rfl, by simp, hne.1, by simpa using hne.2, hs⟩
          simp only [framesQueuePush, if_pos this]
      have hstep : queueStep r (.push none buf size) = r := by
        simp only [queueStep, hr.noFault, hrejected]
        simp
      rwa [hstep]
    · have hstep : queueStep r (.push none buf size) = queueStep r (.push (some fun _ => 0) buf size) := by
        simp only [queueStep, framesQueuePush_malloc_eq hs none (some fun _ => 0)]
      rw [hstep]
      exact hr.push_some _ buf size

theorem OwnInv.step (hr : OwnInv N r) {c : QueueCall} (hc : ¬ DropsBlock r c) :
    Harmless r c ∧ OwnInv N (queueStep r c) := by
  by_cases hfail : FailsMalloc r c
  · have hself := hr.step_eq_self hfail (not_not.mp fun hne => hc ⟨hfail, hne⟩)
    rw [Harmless, hself]
    exact ⟨fun _ => ⟨rfl, fun _ => rfl⟩, hr⟩
  · refine ⟨fun h => absurd h hfail, ?_⟩
    cases c with
    | push malloc buf size => exact hr.push malloc buf size hfail
    | pop => exact hr.pop

/-- A dropped block leaves its slot with a size and no block. -/
theorem not_sound_of_dropsBlock (hr : OwnInv N r) {c : QueueCall} (hc : DropsBlock r c) :
    ¬ Sound N (queueStep r c) := by
  cases c with
  | pop => exact hc.1.elim
  | push malloc buf size =>
    obtain ⟨⟨hf, rfl, hbuf, h₀, hready, hs⟩, hsize⟩ := hc
    obtain ⟨src, rfl⟩ := Option.ne_none_iff_exists'.mp hbuf
    have hpush := framesQueuePush_fails r.heap src h₀ hready hs
    rintro ⟨-, hown⟩
    have htail := hown r.queue.indexTail hr.queue.tail_lt
    have hframe : (queueStep r (.push none (some src) size)).queue.frames r.queue.indexTail =
        { r.queue.tailFrame with data := none } := by
      simp only [queueStep, hf, hpush]
      exact QueueInv.setTail_tailFrame ..
    rw [hframe] at htail
    exact hsize htail

theorem always_sound_iff (hN : 1 ≤ N) {h : Heap} (hf : h.fault = false) (junk : ℕ → Aframe)
    (calls : List QueueCall) :
    Always queueStep (Sound N) (queueStart h junk N) calls ↔
      EachStep queueStep (fun r c => ¬ DropsBlock r c) (queueStart h junk N) calls :=
  always_iff_eachStep (I := OwnInv N) (fun _ hr => hr.sound) (fun _ _ hr hc => (hr.step hc).2)
    (fun _ _ hr hc => not_sound_of_dropsBlock hr (not_not.mp hc)) (OwnInv.start hN hf junk)

/-- **A failed allocation never corrupts the queue exactly when it never meets a slot with a size**: then
every slot owns a block of its size throughout, and every push that fails is as good as not made. -/
theorem sound_iff (hN : 1 ≤ N) {h : Heap} (hf : h.fault = false) (junk : ℕ → Aframe)
    (calls : List QueueCall) :
    (Always queueStep (Sound N) (queueStart h junk N) calls ∧
      EachStep queueStep Harmless (queueStart h junk N) calls) ↔
    EachStep queueStep (fun r c => ¬ DropsBlock r c) (queueStart h junk N) calls := by
  have hiff := always_sound_iff hN hf junk calls
  constructor
  · exact fun hs => hiff.mp hs.1
  · exact fun hgood => ⟨hiff.mpr hgood,
      hgood.imp (I := OwnInv N) (fun _ _ hr hc => hr.step hc) (OwnInv.start hN hf junk)⟩

theorem sound_iff_two :
    (Always queueStep (Sound 2) (queueStart Heap.empty (fun _ => ⟨true, 1, 1, none⟩) 2)
        [.push (some fun _ => 0) (some fun _ => 7) 3, .push none (some fun _ => 7) 3] ∧
      EachStep queueStep Harmless (queueStart Heap.empty (fun _ => ⟨true, 1, 1, none⟩) 2)
        [.push (some fun _ => 0) (some fun _ => 7) 3, .push none (some fun _ => 7) 3]) ↔
    EachStep queueStep (fun r c => ¬ DropsBlock r c)
      (queueStart Heap.empty (fun _ => ⟨true, 1, 1, none⟩) 2)
      [.push (some fun _ => 0) (some fun _ => 7) 3, .push none (some fun _ => 7) 3] :=
  sound_iff (by decide) rfl _ _

/-- In a queue of one slot, push two bytes and pop them; a push of three fails at its allocation, and the
next push of one byte writes through a null pointer. -/
theorem not_sound_one : ¬ ∀ N : ℕ, 1 ≤ N → ∀ h : Heap, h.fault = false → ∀ junk calls,
    Always queueStep (Sound N) (queueStart h junk N) calls ∧
      EachStep queueStep Harmless (queueStart h junk N) calls := by
  intro h
  have hlast := (h 1 le_rfl Heap.empty rfl (fun _ => ⟨false, 0, 0, none⟩)
    [.push (some fun _ => 0) (some fun _ => 7) 2, .pop, .push none (some fun _ => 8) 3,
      .push (some fun _ => 0) (some fun _ => 9) 1]).1 _ List.prefix_rfl
  exact absurd hlast.1 (by decide)

end Runs

end AudioProcess
