import AudioProcess.Lib.CInt
import AudioProcess.Lib.Mem

/-!
# The ring buffer (`common/BufferManager/ring_buf.c`)

Pointers into the buffer are offsets from `buf_start`, pointer differences are integers, and the
conversions to `int` and `unsigned int` are those of the C code. Every call holds the mutex, so a
call is one step.

* `RingBuf`, `ringbufCreate`;
* `ringbufPush`, `ringbufPop`: the buffer after the call and the returned value (for `ringbufPop`
  also the memory at `data`);
* `ringbufGetUsedSize`, `ringbufGetFreeSize`.
-/

namespace AudioProcess

open CInt Mem

/-- `struct ringbuf_t`. -/
structure RingBuf where
  bufSize : ℕ
  bufHead : ℕ
  bufTail : ℕ
  bufStart : ℕ → UInt8

namespace RingBuf

variable (b : RingBuf)

/-- `RINGBUF_END`, as an offset. -/
def ringbufEnd : ℤ := b.bufSize - 1

/-- `RINGBUF_USED`. -/
def ringbufUsed : ℤ :=
  if b.bufHead ≤ b.bufTail then (b.bufTail : ℤ) - b.bufHead else (b.bufSize : ℤ) + b.bufTail - b.bufHead

/-- `RINGBUF_FREE`. -/
def ringbufFree : ℤ :=
  if b.bufHead ≤ b.bufTail then (b.bufSize : ℤ) + b.bufHead - b.bufTail else (b.bufHead : ℤ) - b.bufTail

end RingBuf

open RingBuf

/-- `ringbuf_create`, its `malloc` succeeding with contents `junk`. -/
def ringbufCreate (junk : ℕ → UInt8) (size : ℕ) : Option RingBuf :=
  if size > 0 then some ⟨size, 0, 0, junk⟩ else none

/-- `ringbuf_push`; `data` is `none` for a null pointer. -/
def ringbufPush (b : RingBuf) (data : Option (ℕ → UInt8)) (size : ℤ) : RingBuf × ℤ :=
  match data with
  | none => (b, 0)
  | some src =>
    if size > 0 ∧ size < toInt32 b.ringbufFree then
      let tailFree := toUInt32 (b.ringbufEnd - b.bufTail + 1)
      if tailFree ≥ toUInt32 size then
        let tail := b.bufTail + size.toNat
        ({ b with
            bufStart := memcpy b.bufStart b.bufTail src 0 size.toNat
            bufTail := if (tail : ℤ) > b.ringbufEnd then 0 else tail }, size)
      else
        let lev := toUInt32 ((toUInt32 size : ℤ) - tailFree)
        ({ b with
            bufStart := memcpy (memcpy b.bufStart b.bufTail src 0 tailFree) 0 src tailFree lev
            bufTail := lev }, size)
    else (b, 0)

/-- `ringbuf_pop`; `data` is the memory the caller passes, `none` for a null pointer. -/
def ringbufPop (b : RingBuf) (data : Option (ℕ → UInt8)) (size : ℤ) :
    RingBuf × Option (ℕ → UInt8) × ℤ :=
  match data with
  | none => (b, none, 0)
  | some dst =>
    if size > 0 ∧ size < toInt32 b.ringbufUsed then
      let headUsed := toUInt32 (b.ringbufEnd - b.bufHead + 1)
      if headUsed ≥ toUInt32 size then
        let head := b.bufHead + size.toNat
        -- unlike in `ringbuf_push`, a head past the end goes to the last byte, not to the start
        ({ b with bufHead := if (head : ℤ) > b.ringbufEnd then b.ringbufEnd.toNat else head },
          some (memcpy dst 0 b.bufStart b.bufHead size.toNat), size)
      else
        let lev := toUInt32 ((toUInt32 size : ℤ) - headUsed)
        ({ b with bufHead := lev },
          some (memcpy (memcpy dst 0 b.bufStart b.bufHead headUsed) headUsed b.bufStart 0 lev), size)
    else (b, some dst, 0)

/-- `ringbuf_get_size`. -/
def ringbufGetSize (b : RingBuf) : ℤ := toInt32 b.bufSize

/-- `ringbuf_get_used_size`. -/
def ringbufGetUsedSize (b : RingBuf) : ℤ :=
  toInt32 (if b.bufHead ≤ b.bufTail then (b.bufTail : ℤ) - b.bufHead
    else (b.bufSize : ℤ) + b.bufTail - b.bufHead)

/-- `ringbuf_get_free_size`. -/
def ringbufGetFreeSize (b : RingBuf) : ℤ :=
  toInt32 (if b.bufHead ≤ b.bufTail then (b.bufSize : ℤ) + b.bufHead - b.bufTail
    else (b.bufHead : ℤ) - b.bufTail)

end AudioProcess
