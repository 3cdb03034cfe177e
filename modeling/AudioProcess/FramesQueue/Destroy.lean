import AudioProcess.FramesQueue.AllocFail

/-!
# The life of a frame queue, from its creation to its release

`frames_queue_create` allocates the queue and its slots, pushes allocate the blocks of the slots, and
`frames_queue_destroy` releases all of them. It holds the mutex of the queue it releases, so its last
statement unlocks a mutex in memory that is gone.

* `QueueObject`, `framesQueueCreateMem`, `releaseQueue`, `framesQueueDestroy`;
* `Holding`: what a queue in use has allocated is what its slots point to, each block in one slot;
* **`framesQueueDestroy_run`**: after any run of calls, allocations failing or not, the releases leave the
  heap as it was before the creation, and the last unlock then always meets freed memory.
-/

namespace AudioProcess

open CHeap

/-- The addresses of a `struct framesQueue` and of its `frames`. -/
structure QueueObject where
  self : ℕ
  frames : ℕ

/-- The allocations of `frames_queue_create`, both succeeding; `size` and `framesSize` are the sizes of
the two, `junk` and `framesJunk` what they hold. -/
def framesQueueCreateMem (h : Heap) (size framesSize : ℕ) (junk framesJunk : ℕ → UInt8) : QueueObject × Heap :=
  let s := h.malloc size junk
  let f := s.2.malloc framesSize framesJunk
  (⟨s.1, f.1⟩, f.2)

/-- `pthread_mutex_lock` and `pthread_mutex_unlock` of a mutex in the block at `p`. -/
def reachMutex (h : Heap) (p : ℕ) : Heap := if (h.block p).isSome then h else { h with fault := true }

/-- `frames_queue_destroy` up to its last statement. -/
def releaseQueue (o : QueueObject) (q : FramesQueue) (h : Heap) : Heap :=
  let h := reachMutex h o.self
  let h := h.freeEach (fun i => (q.frames i).data) q.numFrames
  (h.free o.frames).free o.self

/-- `frames_queue_destroy` of a queue that is not null. -/
def framesQueueDestroy (o : QueueObject) (q : FramesQueue) (h : Heap) : Heap :=
  reachMutex (releaseQueue o q h) o.self

/-- The queue `q`, in use since the heap `h₀`, holds what was allocated since then. -/
structure Holding (N : ℕ) (h₀ h : Heap) (q : FramesQueue) : Prop where
  num : q.numFrames = N
  tail_lt : q.indexTail < N
  fresh : h₀.fresh ≤ h.fresh
  old : ∀ p < h₀.fresh, h.block p = h₀.block p
  live : ∀ p, h₀.fresh ≤ p → ((h.block p).isSome ↔ ∃ i < N, (q.frames i).data = some p)
  new : ∀ i < N, ∀ p, (q.frames i).data = some p → h₀.fresh ≤ p
  apart : ∀ i < N, ∀ j < N, ∀ p, (q.frames i).data = some p → (q.frames j).data = some p → i = j

section Calls

variable {N : ℕ} {h₀ h h' : Heap} {q q' : FramesQueue}

theorem Holding.create (hN : 0 < N) (h : Heap) (junk : ℕ → Aframe) :
    Holding N h h (framesQueueCreate junk N) := by
  have hnone : ∀ i < N, ((framesQueueCreate junk N).frames i).data = none := fun i hi => by
    simp [framesQueueCreate, hi]
  refine ⟨rfl, hN, le_rfl, fun _ _ => rfl, fun p hp => ?_, fun i hi p hp => ?_, fun i hi j _ p hp => ?_⟩
  · rw [h.fresh_spec p hp]
    refine ⟨fun hs => absurd hs (by simp), ?_⟩
    rintro ⟨i, hi, hd⟩
    rw [hnone i hi] at hd
    cases hd
  · rw [hnone i hi] at hp
    cases hp
  · rw [hnone i hi] at hp
    cases hp

theorem Holding.releasable (hq : Holding N h₀ h q) : Heap.Releasable (fun i => (q.frames i).data) N h where
  live i hi p hp := (hq.live p (hq.new i hi p hp)).mpr ⟨i, hi, hp⟩
  apart := hq.apart

/-- Changes of the slots other than their blocks, and of the bytes of the blocks, do not matter. -/
theorem Holding.congr (hq : Holding N h₀ h q) (hnum : q'.numFrames = q.numFrames) (htail : q'.indexTail < N)
    (hdata : ∀ i, (q'.frames i).data = (q.frames i).data) (hfresh : h.fresh ≤ h'.fresh)
    (hsome : ∀ p, (h'.block p).isSome = (h.block p).isSome)
    (hold : ∀ p < h₀.fresh, h'.block p = h.block p) : Holding N h₀ h' q' where
  num := hnum.trans hq.num
  tail_lt := htail
  fresh := hq.fresh.trans hfresh
  old p hp := (hold p hp).trans (hq.old p hp)
  live p hp := by
    simp only [hsome, hdata]
    exact hq.live p hp
  new i hi p hp := hq.new i hi p (hdata i ▸ hp)
  apart i hi j hj p hip hjp := hq.apart i hi j hj p (hdata i ▸ hip) (hdata j ▸ hjp)

theorem data_setTail (q : FramesQueue) (f : Aframe) (i : ℕ) :
    ((q.setTail f).frames i).data = if i = q.indexTail then f.data else (q.frames i).data := by
  by_cases e : i = q.indexTail
  · subst e
    rw [QueueInv.setTail_frames_tail, if_pos rfl]
  · rw [QueueInv.setTail_frames_ne _ _ e, if_neg e]

/-- The block of the tail slot is released. -/
theorem Holding.freeTail (hq : Holding N h₀ h q) {f : Aframe} (hf : f.data = none) :
    Holding N h₀ (q.tailFrame.data.elim h h.free) (q.setTail f) := by
  have htail := hq.tail_lt
  have hdata : ∀ i p, ((q.setTail f).frames i).data = some p ↔ i ≠ q.indexTail ∧ (q.frames i).data = some p :=
    fun i p => by
      rw [data_setTail, hf]
      split_ifs with e <;> simp [e]
  refine ⟨hq.num, htail, ?_, fun p hp => ?_, fun p hp => ?_, fun i hi p hp => hq.new i hi p ((hdata i p).mp hp).2,
    fun i hi j hj p hip hjp => hq.apart i hi j hj p ((hdata i p).mp hip).2 ((hdata j p).mp hjp).2⟩
  · cases hd : q.tailFrame.data with
    | none => exact hq.fresh
    | some a => exact hq.fresh.trans (Heap.frame_free a).fresh
  · cases hd : q.tailFrame.data with
    | none => exact hq.old p hp
    | some a =>
      have hpa : p ≠ a := fun e => absurd (hq.new _ htail a hd) (by omega)
      rw [Option.elim_some, Heap.block_free_of_ne hpa]
      exact hq.old p hp
  · simp only [hdata]
    by_cases hpt : q.tailFrame.data = some p
    · have hlive : (h.block p).isSome := (hq.live p hp).mpr ⟨_, htail, hpt⟩
      rw [hpt, Option.elim_some, Heap.block_free hlive, Function.update_self]
      refine ⟨fun hs => absurd hs (by simp), ?_⟩
      rintro ⟨i, hi, hne, hip⟩
      exact absurd (hq.apart i hi _ htail p hip hpt) hne
    · have hblock : (q.tailFrame.data.elim h h.free).block p = h.block p := by
        cases hd : q.tailFrame.data with
        | none => rfl
        | some a => exact Heap.block_free_of_ne fun e => hpt (e ▸ hd)
      rw [hblock, hq.live p hp]
      constructor
      · rintro ⟨i, hi, hip⟩
        refine ⟨i, hi, ?_, hip⟩
        rintro rfl
        exact hpt hip
      · rintro ⟨i, hi, -, hip⟩
        exact ⟨i, hi, hip⟩

/-- A slot without a block gets a new one. -/
theorem Holding.mallocTail (hq : Holding N h₀ h q) (hd : q.tailFrame.data = none) (n : ℕ) (junk : ℕ → UInt8)
    {f : Aframe} (hf : f.data = some h.fresh) : Holding N h₀ (h.malloc n junk).2 (q.setTail f) := by
  have htail := hq.tail_lt
  have hlt : ∀ i < N, ∀ p, (q.frames i).data = some p → p < h.fresh := fun i hi p hp =>
    Heap.lt_fresh_of_isSome (hq.releasable.live i hi p hp)
  have hdata : ∀ i p, ((q.setTail f).frames i).data = some p ↔
      (i = q.indexTail ∧ p = h.fresh) ∨ (i ≠ q.indexTail ∧ (q.frames i).data = some p) := fun i p => by
    rw [data_setTail, hf]
    split_ifs with e
    · simp [e, eq_comm]
    · simp [e]
  refine ⟨hq.num, htail, hq.fresh.trans (Heap.frame_malloc n junk).fresh, fun p hp => ?_, fun p hp => ?_,
    fun i hi p hp => ?_, fun i hi j hj p hip hjp => ?_⟩
  · rw [(Heap.frame_malloc n junk).block p (hp.trans_le hq.fresh) (Set.notMem_empty p)]
    exact hq.old p hp
  · simp only [hdata]
    by_cases e : p = h.fresh
    · subst e
      rw [show (h.malloc n junk).2.block h.fresh = _ from Heap.block_malloc_self n junk]
      exact ⟨fun _ => ⟨q.indexTail, htail, .inl ⟨rfl, rfl⟩⟩, fun _ => rfl⟩
    · rw [show (h.malloc n junk).2.block p = h.block p from Function.update_of_ne e .., hq.live p hp]
      constructor
      · rintro ⟨i, hi, hip⟩
        refine ⟨i, hi, .inr ⟨?_, hip⟩⟩
        rintro rfl
        rw [show (q.frames q.indexTail).data = none from hd] at hip
        cases hip
      · rintro ⟨i, hi, ⟨-, rfl⟩ | ⟨-, hip⟩⟩
        · exact absurd rfl e
        · exact ⟨i, hi, hip⟩
  · rcases (hdata i p).mp hp with ⟨-, rfl⟩ | ⟨-, hip⟩
    · exact hq.fresh
    · exact hq.new i hi p hip
  · rcases (hdata i p).mp hip with ⟨rfl, rfl⟩ | ⟨-, hi'⟩ <;> rcases (hdata j _).mp hjp with ⟨rfl, hp⟩ | ⟨-, hj'⟩
    · rfl
    · exact absurd (hlt j hj _ hj') (lt_irrefl _)
    · exact absurd (hlt i hi _ hi') (by omega)
    · exact hq.apart i hi j hj p hi' hj'

theorem Holding.grow (hq : Holding N h₀ h q) (malloc : Option (ℕ → UInt8)) (size : UInt32) :
    Holding N h₀ (growSlot malloc h q size).1 (growSlot malloc h q size).2.1 := by
  by_cases hs : q.tailFrame.size.toUInt32 < size
  · have hfree := hq.freeTail (f := { q.tailFrame with data := none }) rfl
    simp only [growSlot, if_pos hs]
    cases malloc with
    | none => exact hfree
    | some junk =>
      have hnone : (q.setTail { q.tailFrame with data := none }).tailFrame.data = none := by
        rw [QueueInv.setTail_tailFrame]
      have hnew := hfree.mallocTail hnone size.toNat junk
        (f := { q.tailFrame with data := some (q.tailFrame.data.elim h h.free).fresh, size := size.toInt32 }) rfl
      simp only [FramesQueue.setTail, Function.update_idem] at hnew
      exact hnew
  · simp only [growSlot, if_neg hs]
    exact hq

theorem Holding.store (hq : Holding N h₀ h q) (src : ℕ → UInt8) (size : UInt32) :
    Holding N h₀ (storeFrame h q src size).1 (storeFrame h q src size).2 := by
  have hframe := Heap.frame_memcpy (h := h) q.tailFrame.data src size.toNat
  refine hq.congr rfl ?_ (fun i => (storeFrame_data h q src size i).1) hframe.fresh
    (fun p => Heap.isSome_memcpy ..) fun p hp => hframe.block p (hp.trans_le hq.fresh) fun hd => ?_
  · have htail := hq.tail_lt
    have hnum := hq.num
    show (if q.indexTail + 1 = q.numFrames then 0 else q.indexTail + 1) < N
    split_ifs <;> omega
  · have := hq.new _ hq.tail_lt p hd
    omega

theorem Holding.push (hq : Holding N h₀ h q) (malloc buf : Option (ℕ → UInt8)) (size : UInt32) :
    Holding N h₀ (framesQueuePush malloc h q buf size).1 (framesQueuePush malloc h q buf size).2.1 := by
  have hgrow := hq.grow malloc size
  cases buf with
  | none => exact hq
  | some src =>
    simp only [framesQueuePush]
    split_ifs
    · exact hq
    · exact hgrow.store src size
    · exact hgrow

theorem Holding.pop (hq : Holding N h₀ h q) : Holding N h₀ h (framesQueuePop q).1 := by
  refine hq.congr ?_ ?_ (fun i => (framesQueuePop_data q i).1) le_rfl (fun _ => rfl) fun _ _ => rfl
  · simp only [framesQueuePop]
    split_ifs <;> rfl
  · have htail := hq.tail_lt
    simp only [framesQueuePop]
    split_ifs <;> exact htail

theorem Holding.step {r : QueueRun} (hr : Holding N h₀ r.heap r.queue) (c : QueueCall) :
    Holding N h₀ (queueStep r c).heap (queueStep r c).queue := by
  unfold queueStep
  split_ifs
  · exact hr
  · cases c with
    | push malloc buf size => exact hr.push malloc buf size
    | pop => exact hr.pop

end Calls

section Release

variable {N : ℕ} {h₀ h : Heap} {q : FramesQueue} {o : QueueObject}

/-- The queue's own two blocks are there. -/
structure QueueObject.Live (o : QueueObject) (h : Heap) : Prop where
  self : (h.block o.self).isSome
  frames : (h.block o.frames).isSome
  ne : o.frames ≠ o.self

theorem Holding.block_kept (hq : Holding N h₀ h q) {p : ℕ} (hp : p < h₀.fresh) :
    (h.freeEach (fun i => (q.frames i).data) N).block p = h₀.block p := by
  rw [Heap.block_freeEach_of_ne fun i hi hd => absurd (hq.new i hi p hd) (by omega)]
  exact hq.old p hp

theorem Holding.block_released (hq : Holding N h₀ h q) {p : ℕ} (hp : h₀.fresh ≤ p) :
    (h.freeEach (fun i => (q.frames i).data) N).block p = none := by
  by_cases hd : ∃ i < N, (q.frames i).data = some p
  · obtain ⟨i, hi, hip⟩ := hd
    exact Heap.block_freeEach hq.releasable hi hip
  · have hdead : h.block p = none := Option.not_isSome_iff_eq_none.mp (mt (hq.live p hp).mp hd)
    rw [Heap.block_freeEach_of_ne fun i hi hip => hd ⟨i, hi, hip⟩, hdead]

/-- The releases of `frames_queue_destroy` are of live blocks, and leave nothing that was allocated for
the queue. -/
theorem Holding.release (hq : Holding N h₀ h q) (ho : o.Live h₀) :
    (releaseQueue o q h).fault = h.fault ∧
      ∀ p, (releaseQueue o q h).block p =
        if p = o.self ∨ p = o.frames ∨ h₀.fresh ≤ p then none else h₀.block p := by
  have hself := Heap.lt_fresh_of_isSome ho.self
  have hlock : reachMutex h o.self = h := if_pos (by rw [hq.old _ hself]; exact ho.self)
  have hframes : ((h.freeEach (fun i => (q.frames i).data) N).block o.frames).isSome := by
    rw [hq.block_kept (Heap.lt_fresh_of_isSome ho.frames)]
    exact ho.frames
  have hlast : (((h.freeEach (fun i => (q.frames i).data) N).free o.frames).block o.self).isSome := by
    rw [Heap.block_free_of_ne ho.ne.symm, hq.block_kept hself]
    exact ho.self
  simp only [releaseQueue, hlock, hq.num]
  refine ⟨?_, fun p => ?_⟩
  · rw [Heap.fault_free_of_isSome hlast, Heap.fault_free_of_isSome hframes, Heap.fault_freeEach hq.releasable]
  · by_cases h₁ : p = o.self
    · rw [if_pos (.inl h₁), h₁, Heap.block_free hlast, Function.update_self]
    by_cases h₂ : p = o.frames
    · rw [if_pos (.inr (.inl h₂)), Heap.block_free_of_ne h₁, h₂, Heap.block_free hframes, Function.update_self]
    rw [Heap.block_free_of_ne h₁, Heap.block_free_of_ne h₂]
    by_cases h₃ : h₀.fresh ≤ p
    · rw [if_pos (.inr (.inr h₃)), hq.block_released h₃]
    · rw [if_neg (by tauto), hq.block_kept (by omega)]

variable {size framesSize : ℕ} {junk framesJunk : ℕ → UInt8}

theorem framesQueueCreateMem_live (h : Heap) :
    (framesQueueCreateMem h size framesSize junk framesJunk).1.Live
      (framesQueueCreateMem h size framesSize junk framesJunk).2 where
  self := by simp [framesQueueCreateMem, Heap.malloc]
  frames := by simp [framesQueueCreateMem, Heap.malloc]
  ne := Nat.succ_ne_self h.fresh

theorem block_framesQueueCreateMem (h : Heap) {p : ℕ} (hp : p < h.fresh) :
    (framesQueueCreateMem h size framesSize junk framesJunk).2.block p = h.block p := by
  have h₁ : p ≠ h.fresh := by omega
  have h₂ : p ≠ h.fresh + 1 := by omega
  simp [framesQueueCreateMem, Heap.malloc, h₁, h₂]

/-- **Nothing that a frame queue allocated outlives it, and nothing is released twice.** After a run of
calls whose allocations succeed or fail, every block that `frames_queue_destroy` releases is live (it adds
no fault, so there is none where no allocation fails at a slot that has a size already), and the heap is
what it was before the creation. Its last statement then unlocks the mutex in the block just released. -/
theorem framesQueueDestroy_run (hN : 1 ≤ N) (h : Heap) (size framesSize : ℕ) (junk framesJunk : ℕ → UInt8)
    (slots : ℕ → Aframe) (calls : List QueueCall) :
    let c := framesQueueCreateMem h size framesSize junk framesJunk
    let r := Runs.run queueStep (queueStart c.2 slots N) calls
    (releaseQueue c.1 r.queue r.heap).fault = r.heap.fault ∧
      (h.fault = false → Runs.EachStep queueStep (fun r c => ¬ DropsBlock r c) (queueStart c.2 slots N) calls →
        (releaseQueue c.1 r.queue r.heap).fault = false) ∧
      (releaseQueue c.1 r.queue r.heap).block = h.block ∧
      (framesQueueDestroy c.1 r.queue r.heap).fault = true := by
  intro c r
  have hlive : c.1.Live c.2 := framesQueueCreateMem_live h
  have hr : Holding N c.2 r.heap r.queue :=
    Runs.run_induction (I := fun s : QueueRun => Holding N c.2 s.heap s.queue) (Holding.create hN c.2 slots)
      fun _ a _ hs => hs.step a
  obtain ⟨hfault, hblock⟩ := hr.release hlive
  refine ⟨hfault, fun hf hgood => ?_, ?_, ?_⟩
  · have hsound := (always_sound_iff hN (h := c.2) hf slots calls).mpr hgood calls List.prefix_rfl
    exact hfault.trans hsound.1
  · funext p
    rw [hblock]
    have hself : c.1.self = h.fresh := rfl
    have hframes : c.1.frames = h.fresh + 1 := rfl
    have hfresh : c.2.fresh = h.fresh + 2 := rfl
    split_ifs with hp
    · exact (h.fresh_spec p (by omega)).symm
    · exact block_framesQueueCreateMem h (by omega)
  · have hgone : (releaseQueue c.1 r.queue r.heap).block c.1.self = none := by
      rw [hblock, if_pos (.inl rfl)]
    simp [framesQueueDestroy, reachMutex, hgone]

theorem framesQueueDestroy_run_two :
    let c := framesQueueCreateMem Heap.empty 72 48 (fun _ => 0) fun _ => 0
    let r := Runs.run queueStep (queueStart c.2 (fun _ => ⟨true, 1, 1, none⟩) 2)
      [.push (some fun _ => 0) (some fun _ => 7) 3, .pop, .push none (some fun _ => 7) 3]
    (releaseQueue c.1 r.queue r.heap).fault = r.heap.fault ∧
      (Heap.empty.fault = false → Runs.EachStep queueStep (fun r c => ¬ DropsBlock r c)
          (queueStart c.2 (fun _ => ⟨true, 1, 1, none⟩) 2)
          [.push (some fun _ => 0) (some fun _ => 7) 3, .pop, .push none (some fun _ => 7) 3] →
        (releaseQueue c.1 r.queue r.heap).fault = false) ∧
      (releaseQueue c.1 r.queue r.heap).block = Heap.empty.block ∧
      (framesQueueDestroy c.1 r.queue r.heap).fault = true :=
  framesQueueDestroy_run (by decide) Heap.empty 72 48 _ _ _ _

end Release

end AudioProcess
