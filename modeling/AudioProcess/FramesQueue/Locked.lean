import AudioProcess.FramesQueue.Occupancy
import AudioProcess.Lib.Mutex

/-!
# The frame queue under its mutex

The calls of `frames_queue.c` access by access: each field that is read or set, and each `malloc`, `free` and `memcpy`,
is one access, and the other threads run between any two of them.

* `lockedFramesQueuePush`, `lockedFramesQueuePop`, `lockedGetNumValidFrames`: the calls between lock and unlock;
* `run_lockedFramesQueuePush`, `run_lockedFramesQueuePop`: left alone, they are `framesQueuePush` and
  `framesQueuePop`;
* `LockedQueueCall.bounded`: what a queue of at most `N` frames answers, one that reports `0` when it is full;
* **`framesQueue_linearizable`**: for any threads and any schedule, the threads get the answers of such a queue, and a
  frame is the bytes behind `*buf` when the mutex is given back.
-/

namespace AudioProcess

open CHeap Mem FramesQueue Mutex Mutex.Code Runs

/-! ## The calls access by access -/

/-- The queue and the heap with its blocks. -/
structure QueueMem where
  heap : Heap
  queue : FramesQueue

/-- A call that takes the mutex; a push comes with the outcome of its allocation. -/
inductive LockedQueueCall
  | push (malloc : Option (ℕ → UInt8)) (buf : Option (ℕ → UInt8)) (size : UInt32)
  | pop
  | getNumValidFrames

/-- `queue->frames[queue->index_tail].field`. -/
def readTailFrame {α : Type} (field : Aframe → α) : Code QueueMem α := do
  let tail ← read fun m => m.queue.indexTail
  read fun m => field (m.queue.frames tail)

/-- Set a field of `queue->frames[queue->index_tail]`. -/
def writeTailFrame (set : Aframe → Aframe) : Code QueueMem Unit := do
  let tail ← read fun m => m.queue.indexTail
  write fun m => { m with queue := { m.queue with
    frames := Function.update m.queue.frames tail (set (m.queue.frames tail)) } }

/-- `queue->frames[queue->index_head].field`. -/
def readHeadFrame {α : Type} (field : Aframe → α) : Code QueueMem α := do
  let head ← read fun m => m.queue.indexHead
  read fun m => field (m.queue.frames head)

/-- Set a field of `queue->frames[queue->index_head]`. -/
def writeHeadFrame (set : Aframe → Aframe) : Code QueueMem Unit := do
  let head ← read fun m => m.queue.indexHead
  write fun m => { m with queue := { m.queue with
    frames := Function.update m.queue.frames head (set (m.queue.frames head)) } }

/-- The tail slot's block goes back to the heap. -/
def lockedFreeTail : Code QueueMem Unit := do
  let data ← readTailFrame Aframe.data
  if data.isSome then do
    let data ← readTailFrame Aframe.data
    write fun m => { m with heap := data.elim m.heap m.heap.free }
  else return ()

/-- `malloc(size)`. -/
def lockedMalloc (malloc : Option (ℕ → UInt8)) (size : UInt32) : Code QueueMem (Option ℕ) :=
  match malloc with
  | none => pure none
  | some junk => act fun m =>
    (some (m.heap.malloc size.toNat junk).1, { m with heap := (m.heap.malloc size.toNat junk).2 })

/-- The part of `frames_queue_push` that gives the tail slot a block of at least `size` bytes. -/
def lockedGrow (malloc : Option (ℕ → UInt8)) (size : UInt32) : Code QueueMem Bool := do
  let room ← readTailFrame Aframe.size
  if room.toUInt32 < size then do
    lockedFreeTail
    let p ← lockedMalloc malloc size
    writeTailFrame fun f => { f with data := p }
    let data ← readTailFrame Aframe.data
    if data.isSome then do
      writeTailFrame fun f => { f with size := size.toInt32 }
      return true
    else return false
  else return true

/-- `queue->index_tail` moves on. -/
def advanceIndexTail : Code QueueMem Unit := do
  let tail ← read fun m => m.queue.indexTail
  write fun m => { m with queue := { m.queue with indexTail := tail + 1 } }
  let tail ← read fun m => m.queue.indexTail
  let num ← read fun m => m.queue.numFrames
  if tail = num then write fun m => { m with queue := { m.queue with indexTail := 0 } } else return ()

/-- `queue->index_head` moves on. -/
def advanceIndexHead : Code QueueMem Unit := do
  let head ← read fun m => m.queue.indexHead
  write fun m => { m with queue := { m.queue with indexHead := head + 1 } }
  let head ← read fun m => m.queue.indexHead
  let num ← read fun m => m.queue.numFrames
  if head = num then write fun m => { m with queue := { m.queue with indexHead := 0 } } else return ()

/-- The part of `frames_queue_push` that fills the tail slot. -/
def lockedStore (src : ℕ → UInt8) (size : UInt32) : Code QueueMem Unit := do
  let data ← readTailFrame Aframe.data
  write fun m => { m with heap := m.heap.memcpy data src size.toNat }
  writeTailFrame fun f => { f with validSize := size.toInt32 }
  writeTailFrame fun f => { f with ready := true }
  advanceIndexTail

/-- `frames_queue_push`. -/
def lockedFramesQueuePush (malloc : Option (ℕ → UInt8)) (buf : Option (ℕ → UInt8)) (size : UInt32) :
    Code QueueMem ℤ :=
  match buf with
  | none => pure (-1)
  | some src =>
    if size = 0 then pure (-1)
    else do
      let ready ← readTailFrame Aframe.ready
      if ready then return -1
      else do
        let ok ← lockedGrow malloc size
        if ok then do
          lockedStore src size
          return 0
        else return -1

/-- `frames_queue_pop`: the returned value, and what was stored in `*buf` and `*size`. -/
def lockedFramesQueuePop : Code QueueMem (ℤ × Option (Option ℕ × UInt32)) := do
  let ready ← readHeadFrame Aframe.ready
  if ready then do
    let data ← readHeadFrame Aframe.data
    let validSize ← readHeadFrame Aframe.validSize
    writeHeadFrame fun f => { f with ready := false }
    advanceIndexHead
    return (0, some (data, validSize.toUInt32))
  else return (-1, none)

/-- `frames_queue_get_num_valid_frames`; what it computes after the unlock is computed from what it read before. -/
def lockedGetNumValidFrames : Code QueueMem ℤ := do
  let head ← read fun m => m.queue.indexHead
  let tail ← read fun m => m.queue.indexTail
  let num ← read fun m => m.queue.numFrames
  return if head ≤ tail then (tail : ℤ) - head else (num : ℤ) + tail - head

/-! ## A call without interruption -/

section Run

variable (m : QueueMem)

@[simp] theorem run_readTailFrame {α : Type} (field : Aframe → α) :
    (readTailFrame field).run m = (m, field m.queue.tailFrame) := rfl

@[simp] theorem run_writeTailFrame (set : Aframe → Aframe) :
    (writeTailFrame set).run m = (⟨m.heap, m.queue.setTail (set m.queue.tailFrame)⟩, ()) := rfl

@[simp] theorem run_readHeadFrame {α : Type} (field : Aframe → α) :
    (readHeadFrame field).run m = (m, field (m.queue.frames m.queue.indexHead)) := rfl

@[simp] theorem run_writeHeadFrame (set : Aframe → Aframe) : (writeHeadFrame set).run m = (⟨m.heap, { m.queue with
    frames := Function.update m.queue.frames m.queue.indexHead (set (m.queue.frames m.queue.indexHead)) }⟩, ()) :=
  rfl

@[simp] theorem run_lockedFreeTail :
    lockedFreeTail.run m = (⟨m.queue.tailFrame.data.elim m.heap m.heap.free, m.queue⟩, ()) := by
  cases h : m.queue.tailFrame.data <;> simp [lockedFreeTail, h]

@[simp] theorem setTail_setTail (q : FramesQueue) (f g : Aframe) : (q.setTail f).setTail g = q.setTail g := by
  simp [FramesQueue.setTail]

@[simp] theorem run_lockedGrow (malloc : Option (ℕ → UInt8)) (size : UInt32) : (lockedGrow malloc size).run m =
    (⟨(growSlot malloc m.heap m.queue size).1, (growSlot malloc m.heap m.queue size).2.1⟩,
      (growSlot malloc m.heap m.queue size).2.2) := by
  by_cases hroom : m.queue.tailFrame.size.toUInt32 < size
  · cases malloc with
    | none => simp [lockedGrow, growSlot, lockedMalloc, hroom, QueueInv.setTail_tailFrame]
    | some junk => simp [lockedGrow, growSlot, lockedMalloc, hroom, QueueInv.setTail_tailFrame]
  · simp [lockedGrow, growSlot, hroom]

@[simp] theorem run_advanceIndexTail : advanceIndexTail.run m = (⟨m.heap, { m.queue with
    indexTail := if m.queue.indexTail + 1 = m.queue.numFrames then 0 else m.queue.indexTail + 1 }⟩, ()) := by
  by_cases h : m.queue.indexTail + 1 = m.queue.numFrames <;> simp [advanceIndexTail, h]

@[simp] theorem run_advanceIndexHead : advanceIndexHead.run m = (⟨m.heap, { m.queue with
    indexHead := if m.queue.indexHead + 1 = m.queue.numFrames then 0 else m.queue.indexHead + 1 }⟩, ()) := by
  by_cases h : m.queue.indexHead + 1 = m.queue.numFrames <;> simp [advanceIndexHead, h]

@[simp] theorem run_lockedStore (src : ℕ → UInt8) (size : UInt32) : (lockedStore src size).run m =
    (⟨(storeFrame m.heap m.queue src size).1, (storeFrame m.heap m.queue src size).2⟩, ()) := by
  simp [lockedStore, storeFrame, QueueInv.setTail_tailFrame]
  rfl

/-- **Left alone, a push is `framesQueuePush`.** -/
@[simp] theorem run_lockedFramesQueuePush (malloc : Option (ℕ → UInt8)) (buf : Option (ℕ → UInt8)) (size : UInt32) :
    (lockedFramesQueuePush malloc buf size).run m =
      (⟨(framesQueuePush malloc m.heap m.queue buf size).1, (framesQueuePush malloc m.heap m.queue buf size).2.1⟩,
        (framesQueuePush malloc m.heap m.queue buf size).2.2) := by
  cases buf with
  | none => rfl
  | some src =>
      by_cases hsize : size = 0
      · simp [lockedFramesQueuePush, framesQueuePush, hsize]
      · cases hready : m.queue.tailFrame.ready with
        | true => simp [lockedFramesQueuePush, framesQueuePush, hsize, hready]
        | false =>
            cases hgrow : (growSlot malloc m.heap m.queue size).2.2 with
            | true => simp [lockedFramesQueuePush, framesQueuePush, hsize, hready, hgrow]
            | false => simp [lockedFramesQueuePush, framesQueuePush, hsize, hready, hgrow]

/-- **Left alone, a pop is `framesQueuePop`.** -/
@[simp] theorem run_lockedFramesQueuePop : lockedFramesQueuePop.run m =
    (⟨m.heap, (framesQueuePop m.queue).1⟩, (framesQueuePop m.queue).2) := by
  cases hready : (m.queue.frames m.queue.indexHead).ready with
  | true => simp [lockedFramesQueuePop, framesQueuePop, hready]
  | false => simp [lockedFramesQueuePop, framesQueuePop, hready]

@[simp] theorem run_lockedGetNumValidFrames :
    lockedGetNumValidFrames.run m = (m, framesQueueGetNumValidFrames m.queue) := rfl

end Run

/-! ## Calls and answers -/

/-- What a call answers: the returned value and, from a pop, what was stored in `*buf` and `*size` and the bytes that
were behind `*buf` before the mutex was given back. -/
structure QueueAnswer where
  ret : ℤ
  out : Option (Option ℕ × UInt32)
  frame : Option (List UInt8)

/-- The returned value and the popped frame. -/
def QueueAnswer.reply (a : QueueAnswer) : ℤ × Option (List UInt8) := (a.ret, a.frame)

/-- The bytes behind what a pop stored. -/
def frameAt (h : Heap) (out : Option (Option ℕ × UInt32)) : Option (List UInt8) :=
  out.bind fun o => h.bytes o.1 o.2.toNat

namespace LockedQueueCall

/-- What a call does between lock and unlock. The last access of a pop stands for no statement of `frames_queue_pop`,
which only stores a pointer: it records the bytes behind `*buf` at the time the mutex is given back. The consumer reads
them later, and by then a push may have overwritten them. -/
def body : LockedQueueCall → Code QueueMem QueueAnswer
  | push malloc buf size => do
    let r ← lockedFramesQueuePush malloc buf size
    return ⟨r, none, none⟩
  | pop => do
    let r ← lockedFramesQueuePop
    let frame ← read fun m => frameAt m.heap r.2
    return ⟨r.1, r.2, frame⟩
  | getNumValidFrames => do
    let r ← lockedGetNumValidFrames
    return ⟨r, none, none⟩

/-- The call as one step. -/
def atomic : LockedQueueCall → QueueMem → QueueMem × QueueAnswer
  | push malloc buf size, m =>
    let p := framesQueuePush malloc m.heap m.queue buf size
    (⟨p.1, p.2.1⟩, ⟨p.2.2, none, none⟩)
  | pop, m =>
    let p := framesQueuePop m.queue
    (⟨m.heap, p.1⟩, ⟨p.2.1, p.2.2, frameAt m.heap p.2.2⟩)
  | getNumValidFrames, m => (m, ⟨framesQueueGetNumValidFrames m.queue, none, none⟩)

theorem run_body (c : LockedQueueCall) (m : QueueMem) : c.body.run m = c.atomic m := by
  cases c with
  | push malloc buf size => simp [body, atomic]
  | pop => simp [body, atomic]
  | getNumValidFrames => simp [body, atomic]

/-- The push's allocation, if it makes one, succeeds. -/
def MallocOk : LockedQueueCall → Prop
  | push malloc _ _ => malloc ≠ none
  | _ => True

/-- The call on a queue of at most `N` frames: its frames afterwards, the returned value and the popped frame. It is not
the textbook queue: where `frames_queue_get_num_valid_frames` finds `N` frames it reports `0`, as it does on the empty
queue, because head and tail are the same index in both. -/
def bounded (N : ℕ) : LockedQueueCall → List (List UInt8) → List (List UInt8) × ℤ × Option (List UInt8)
  | push _ none _, frames => (frames, -1, none)
  | push _ (some src) size, frames =>
    if size = 0 ∨ frames.length = N then (frames, -1, none)
    else (frames ++ [readCells src 0 size.toNat], 0, none)
  | pop, [] => ([], -1, none)
  | pop, frame :: frames => (frames, 0, some frame)
  | getNumValidFrames, frames => (frames, if frames.length = N then 0 else frames.length, none)

end LockedQueueCall

/-! ## The bounded queue -/

section Bounded

variable {N : ℕ} {h : Heap} {q : FramesQueue} {pending : List (List UInt8)} {m : QueueMem}

/-- The ready slots are the pending frames'. -/
theorem QueueInv.readyInv (hq : QueueInv N h q pending) : ReadyInv N q pending.length where
  num := hq.num
  head_lt := hq.head_lt
  le := hq.length_le
  tail := hq.tail
  ready k hk := by
    constructor
    · intro hready
      by_contra hle
      rw [hq.idle k (not_lt.mp hle) hk] at hready
      cases hready
    · intro hlt
      exact (hq.holds k pending[k] (List.getElem?_eq_getElem hlt)).ready

/-- The memory holds these frames. -/
structure HoldsFrames (N : ℕ) (m : QueueMem) (pending : List (List UInt8)) : Prop where
  queue : QueueInv N m.heap m.queue pending
  noNull : NoNull N m.queue
  noFault : m.heap.fault = false

/-- **A call does to the frames and answers what it does on a bounded queue.** -/
theorem HoldsFrames.call (hm : HoldsFrames N m pending) {c : LockedQueueCall} (hc : c.MallocOk) :
    HoldsFrames N (c.atomic m).1 (c.bounded N pending).1 ∧
      (c.atomic m).2.reply = (c.bounded N pending).2 := by
  cases c with
  | push malloc buf size =>
      obtain ⟨junk, rfl⟩ := Option.ne_none_iff_exists'.mp hc
      cases buf with
      | none => exact ⟨hm, rfl⟩
      | some src =>
          by_cases hs : size = 0 ∨ pending.length = N
          · have hreject := hm.queue.push_of_not (some junk) (.inr hs : some src = none ∨ size = 0 ∨ pending.length = N)
            simp only [LockedQueueCall.atomic, LockedQueueCall.bounded, hreject, if_pos hs]
            exact ⟨hm, rfl⟩
          · have hl : pending.length < N := lt_of_le_of_ne hm.queue.length_le fun he => hs (.inr he)
            obtain ⟨hret, hq, hn, hf⟩ := hm.queue.push hm.noNull junk src (fun h => hs (.inl h)) hl
            simp only [LockedQueueCall.atomic, LockedQueueCall.bounded, hret, if_neg hs]
            exact ⟨⟨hq, hn, hf.trans hm.noFault⟩, rfl⟩
  | pop =>
      have hn : NoNull N (framesQueuePop m.queue).1 := fun i hi hd => by
        rw [(framesQueuePop_data ..).1] at hd
        rw [(framesQueuePop_data ..).2]
        exact hm.noNull i hi hd
      cases pending with
      | nil =>
          have hempty := hm.queue.pop_of_empty
          simp only [LockedQueueCall.atomic, LockedQueueCall.bounded, hempty]
          exact ⟨hm, rfl⟩
      | cons frame frames =>
          obtain ⟨hq, hret, size, hout, hsize, hbytes⟩ := hm.queue.pop
          simp only [LockedQueueCall.atomic, LockedQueueCall.bounded, hret]
          refine ⟨⟨hq, hn, hm.noFault⟩, ?_⟩
          rw [QueueAnswer.reply, hout, frameAt, Option.bind_some, hsize, hbytes]
  | getNumValidFrames =>
      refine ⟨hm, ?_⟩
      simp only [LockedQueueCall.atomic, LockedQueueCall.bounded, QueueAnswer.reply, hm.queue.readyInv.numValid]

variable {τ : Type*} [DecidableEq τ]

/-- **The frame queue is a linearizable bounded queue.** Any threads push frames, pop frames and ask for their number,
and run between each other's accesses as they like; every allocation succeeds. At any time, every thread can still make
all its calls. Whenever the mutex is free: every thread took it for its calls in their order, the returned values and
the popped frames are those of a queue of at most `N` frames, which reports `0` when it is full, whose calls are made one
after another in the order in which they took the mutex; and no block was freed twice or written outside. A popped frame
is the bytes behind `*buf` when the pop gives the mutex back. -/
theorem framesQueue_linearizable (hN : 1 ≤ N) (hf : h.fault = false) (junk : ℕ → Aframe)
    (calls : τ → List LockedQueueCall) (hcalls : ∀ t, ∀ c ∈ calls t, c.MallocOk) (schedule : List τ) :
    let s := run (turn LockedQueueCall.body) (start ⟨h, framesQueueCreate junk N⟩ calls) schedule
    (∀ t, ∃ more, let s' := run (turn LockedQueueCall.body) s more
      s'.owner = none ∧ (s'.threads t).todo = []) ∧
    (s.owner = none →
      let p := sequential (LockedQueueCall.bounded N) [] s.order
      (∀ t, ofThread t s.order ++ (s.threads t).todo = calls t ∧
        (s.threads t).answers.map QueueAnswer.reply = ofThread t p.2) ∧
      QueueInv N s.mem.heap s.mem.queue p.1 ∧ s.mem.heap.fault = false) := by
  intro s
  refine ⟨exists_made _ calls schedule, fun hfree => ?_⟩
  intro p
  obtain ⟨hmem, hthreads⟩ := linearizable LockedQueueCall.run_body schedule hfree
  have hstart : HoldsFrames N ⟨h, framesQueueCreate junk N⟩ [] := by
    refine ⟨QueueInv.create hN h junk, fun i hi _ => ?_, hf⟩
    simp [framesQueueCreate, hi]
  have horder : ∀ a ∈ s.order, a.2.MallocOk := by
    intro a ha
    refine hcalls a.1 a.2 ?_
    rw [← (hthreads a.1).1]
    refine List.mem_append_left _ (List.mem_filterMap.mpr ⟨a, ha, ?_⟩)
    rw [if_pos rfl]
  obtain ⟨hframes, hreplies⟩ := sequential_sim (HoldsFrames N) QueueAnswer.reply hstart
    fun a ha m frames hm => hm.call (horder a ha)
  refine ⟨fun t => ⟨(hthreads t).1, ?_⟩, ?_⟩
  · rw [(hthreads t).2, map_ofThread, hreplies]
  · rw [hmem]
    exact ⟨hframes.queue, hframes.noFault⟩

/-- One thread pushes a frame, and another one asks for the number of frames in the middle of it. -/
theorem framesQueue_linearizable_pair : ∃ frames, QueueInv 2 (run (turn LockedQueueCall.body)
    (start ⟨Heap.empty, framesQueueCreate (fun _ => ⟨true, 1, 1, none⟩) 2⟩
      fun t => if t then [.push (some fun _ => 0) (some fun _ => 7) 3] else [.getNumValidFrames])
    ([true, false, true, false] ++ List.replicate 28 true)).mem.heap (run (turn LockedQueueCall.body)
    (start ⟨Heap.empty, framesQueueCreate (fun _ => ⟨true, 1, 1, none⟩) 2⟩
      fun t => if t then [.push (some fun _ => 0) (some fun _ => 7) 3] else [.getNumValidFrames])
    ([true, false, true, false] ++ List.replicate 28 true)).mem.queue frames :=
  ⟨_, ((framesQueue_linearizable (N := 2) (by decide) rfl _ _
    (by simp [LockedQueueCall.MallocOk]) _).2 rfl).2.1⟩

end Bounded

end AudioProcess
