import AudioProcess.Lib.Cyclic
import AudioProcess.Lib.Heap

/-!
# The frame queue (`common/BufferManager/frames_queue.c`)

Slots own heap blocks; the frame bytes are in the heap. Every call holds the mutex, so a call is one
step. The outcome of the `malloc` a push may make is an argument: `none` when it fails, else the
contents of the new block.

* `Aframe`, `FramesQueue`, `framesQueueCreate`;
* `framesQueuePush`, cut into `growSlot` (the reallocation) and `storeFrame`;
* `framesQueuePop`, `framesQueueGetNumValidFrames`.
-/

namespace AudioProcess

open CHeap

/-- `struct aframe`; `data` is the address of the slot's block, `none` when null. -/
structure Aframe where
  ready : Bool
  validSize : Int32
  size : Int32
  data : Option ℕ

/-- `struct framesQueue`. -/
structure FramesQueue where
  numFrames : ℕ
  indexHead : ℕ
  indexTail : ℕ
  frames : ℕ → Aframe

/-- `frames_queue_create`, both allocations succeeding; `junk` is what the frame array held. -/
def framesQueueCreate (junk : ℕ → Aframe) (numFrames : ℕ) : FramesQueue where
  numFrames := numFrames
  indexHead := 0
  indexTail := 0
  frames i := if i < numFrames then ⟨false, 0, 0, none⟩ else junk i

namespace FramesQueue

variable (q : FramesQueue)

/-- The slot the next push fills. -/
def tailFrame : Aframe := q.frames q.indexTail

/-- Replace the tail slot. -/
def setTail (f : Aframe) : FramesQueue := { q with frames := Function.update q.frames q.indexTail f }

end FramesQueue

open FramesQueue

/-- The part of `frames_queue_push` that gives the tail slot a block of at least `size` bytes; the
third component tells whether it succeeded. -/
def growSlot (malloc : Option (ℕ → UInt8)) (h : Heap) (q : FramesQueue) (size : UInt32) :
    Heap × FramesQueue × Bool :=
  let f := q.tailFrame
  if f.size.toUInt32 < size then
    let h := f.data.elim h h.free
    match malloc with
    | none => (h, q.setTail { f with data := none }, false)
    | some junk =>
      let m := h.malloc size.toNat junk
      (m.2, q.setTail { f with data := some m.1, size := size.toInt32 }, true)
  else (h, q, true)

/-- The part of `frames_queue_push` that fills the tail slot and advances the tail. -/
def storeFrame (h : Heap) (q : FramesQueue) (src : ℕ → UInt8) (size : UInt32) : Heap × FramesQueue :=
  (h.memcpy q.tailFrame.data src size.toNat,
    { q.setTail { q.tailFrame with validSize := size.toInt32, ready := true } with
      indexTail := if q.indexTail + 1 = q.numFrames then 0 else q.indexTail + 1 })

/-- `frames_queue_push`; `buf` is `none` for a null pointer. -/
def framesQueuePush (malloc : Option (ℕ → UInt8)) (h : Heap) (q : FramesQueue)
    (buf : Option (ℕ → UInt8)) (size : UInt32) : Heap × FramesQueue × ℤ :=
  match buf with
  | none => (h, q, -1)
  | some src =>
    if size = 0 ∨ q.tailFrame.ready then (h, q, -1)
    else
      let g := growSlot malloc h q size
      if g.2.2 then
        let s := storeFrame g.1 g.2.1 src size
        (s.1, s.2, 0)
      else (g.1, g.2.1, -1)

/-- `frames_queue_pop`: the queue, the returned value, and what was stored in `*buf` and `*size`. -/
def framesQueuePop (q : FramesQueue) : FramesQueue × ℤ × Option (Option ℕ × UInt32) :=
  let f := q.frames q.indexHead
  if f.ready then
    ({ q with
        frames := Function.update q.frames q.indexHead { f with ready := false }
        indexHead := if q.indexHead + 1 = q.numFrames then 0 else q.indexHead + 1 },
      0, some (f.data, f.validSize.toUInt32))
  else (q, -1, none)

/-- `frames_queue_get_num_valid_frames`. -/
def framesQueueGetNumValidFrames (q : FramesQueue) : ℤ :=
  if q.indexHead ≤ q.indexTail then (q.indexTail : ℤ) - q.indexHead
  else (q.numFrames : ℤ) + q.indexTail - q.indexHead

end AudioProcess
