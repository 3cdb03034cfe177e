import AudioProcess.Lib.Mutex
import AudioProcess.RingBuf.Accept

/-!
# The ring buffer under its mutex

The calls of `ring_buf.c` access by access: each field that an expression reads, each field that is set and each byte
that is copied is one access, and the other threads run between any two of them.

* `lockedPush`, `lockedPop`, `lockedGetUsedSize`, `lockedGetFreeSize`: the calls between lock and unlock;
* `run_storeBytes`, `run_loadBytes`: byte after byte, a copy is a `memcpy`;
* `run_lockedPush`, `run_lockedPop`: left alone, the calls are `ringbufPush` and `ringbufPop`;
* **`ringbuf_linearizable`**: for any threads and any schedule, the calls take effect one after another, and a free
  buffer holds a queue.
-/

namespace AudioProcess

open CInt Mem RingBuf Mutex Mutex.Code Runs

/-! ## The calls access by access -/

/-- A call that takes the mutex. -/
inductive LockedCall
  | push (data : Option (ℕ → UInt8)) (size : ℤ)
  | pop (data : Option (ℕ → UInt8)) (size : ℤ)
  | getUsedSize
  | getFreeSize

/-- `memcpy(pbuf->buf_start + off, src + s, n)`, byte after byte. -/
def storeBytes (off : ℕ) (src : ℕ → UInt8) (s : ℕ) : ℕ → Code RingBuf Unit
  | 0 => pure ()
  | n + 1 => do
    storeBytes off src s n
    write fun b => { b with bufStart := Function.update b.bufStart (off + n) (src (s + n)) }

/-- `memcpy(dst + d, pbuf->buf_start + off, n)`, byte after byte: the memory at `dst` afterwards. -/
def loadBytes (dst : ℕ → UInt8) (d off : ℕ) : ℕ → Code RingBuf (ℕ → UInt8)
  | 0 => pure dst
  | n + 1 => do
    let dst ← loadBytes dst d off n
    let x ← read fun b => b.bufStart (off + n)
    return Function.update dst (d + n) x

/-- `RINGBUF_END`. -/
def readEnd : Code RingBuf ℤ := do
  let size ← read bufSize
  return size - 1

/-- `RINGBUF_USED`. -/
def readUsed : Code RingBuf ℤ := do
  let head ← read bufHead
  let tail ← read bufTail
  if head ≤ tail then do
    let tail ← read bufTail
    let head ← read bufHead
    return tail - head
  else do
    let size ← read bufSize
    let tail ← read bufTail
    let head ← read bufHead
    return size + tail - head

/-- `RINGBUF_FREE`. -/
def readFree : Code RingBuf ℤ := do
  let head ← read bufHead
  let tail ← read bufTail
  if head ≤ tail then do
    let size ← read bufSize
    let head ← read bufHead
    let tail ← read bufTail
    return size + head - tail
  else do
    let head ← read bufHead
    let tail ← read bufTail
    return head - tail

def setHead (head : ℕ) : Code RingBuf Unit := write fun b => { b with bufHead := head }

def setTail (tail : ℕ) : Code RingBuf Unit := write fun b => { b with bufTail := tail }

/-- Move the tail on. It lies behind the end until it is set to the start. -/
def advanceTail (n : ℕ) : Code RingBuf Unit := do
  let tail ← read bufTail
  setTail (tail + n)
  let tail ← read bufTail
  let last ← readEnd
  if (tail : ℤ) > last then setTail 0 else return ()

/-- Move the head on. It lies behind the end until it is set to the last byte. -/
def advanceHead (n : ℕ) : Code RingBuf Unit := do
  let head ← read bufHead
  setHead (head + n)
  let head ← read bufHead
  let last ← readEnd
  if (head : ℤ) > last then do
    let last ← readEnd
    setHead last.toNat
  else return ()

/-- `ringbuf_push`. -/
def lockedPush (data : Option (ℕ → UInt8)) (size : ℤ) : Code RingBuf ℤ :=
  match data with
  | none => pure 0
  | some src =>
    if size > 0 then do
      let free ← readFree
      if size < toInt32 free then do
        let last ← readEnd
        let tail ← read bufTail
        let tailFree := toUInt32 (last - tail + 1)
        if tailFree ≥ toUInt32 size then do
          let tail ← read bufTail
          storeBytes tail src 0 size.toNat
          advanceTail size.toNat
          return size
        else do
          let tail ← read bufTail
          storeBytes tail src 0 tailFree
          let lev := toUInt32 ((toUInt32 size : ℤ) - tailFree)
          storeBytes 0 src tailFree lev
          setTail lev
          return size
      else return 0
    else pure 0

/-- `ringbuf_pop`: the memory at `data` and the returned value. -/
def lockedPop (data : Option (ℕ → UInt8)) (size : ℤ) : Code RingBuf (Option (ℕ → UInt8) × ℤ) :=
  match data with
  | none => pure (none, 0)
  | some dst =>
    if size > 0 then do
      let used ← readUsed
      if size < toInt32 used then do
        let last ← readEnd
        let head ← read bufHead
        let headUsed := toUInt32 (last - head + 1)
        if headUsed ≥ toUInt32 size then do
          let head ← read bufHead
          let dst ← loadBytes dst 0 head size.toNat
          advanceHead size.toNat
          return (some dst, size)
        else do
          let head ← read bufHead
          let dst ← loadBytes dst 0 head headUsed
          let lev := toUInt32 ((toUInt32 size : ℤ) - headUsed)
          let dst ← loadBytes dst headUsed 0 lev
          setHead lev
          return (some dst, size)
      else return (some dst, 0)
    else pure (some dst, 0)

/-- `ringbuf_get_used_size`. -/
def lockedGetUsedSize : Code RingBuf ℤ := do
  let used ← readUsed
  return toInt32 used

/-- `ringbuf_get_free_size`. -/
def lockedGetFreeSize : Code RingBuf ℤ := do
  let free ← readFree
  return toInt32 free

namespace LockedCall

/-- What a call does between lock and unlock. The answer is the memory at `data` after a pop, and the returned
value. -/
def body : LockedCall → Code RingBuf (Option (ℕ → UInt8) × ℤ)
  | push data size => do
    let r ← lockedPush data size
    return (none, r)
  | pop data size => lockedPop data size
  | getUsedSize => do
    let r ← lockedGetUsedSize
    return (none, r)
  | getFreeSize => do
    let r ← lockedGetFreeSize
    return (none, r)

/-- The call as one step. -/
def atomic : LockedCall → RingBuf → RingBuf × Option (ℕ → UInt8) × ℤ
  | push data size, b => ((ringbufPush b data size).1, none, (ringbufPush b data size).2)
  | pop data size, b => ringbufPop b data size
  | getUsedSize, b => (b, none, ringbufGetUsedSize b)
  | getFreeSize, b => (b, none, ringbufGetFreeSize b)

end LockedCall

/-! ## A call without interruption -/

@[simp] theorem run_storeBytes (off : ℕ) (src : ℕ → UInt8) (s n : ℕ) (b : RingBuf) :
    (storeBytes off src s n).run b = ({ b with bufStart := memcpy b.bufStart off src s n }, ()) := by
  induction n with
  | zero => simp [storeBytes]
  | succ n ih => simp [storeBytes, ih, memcpy_succ]

@[simp] theorem run_loadBytes (dst : ℕ → UInt8) (d off n : ℕ) (b : RingBuf) :
    (loadBytes dst d off n).run b = (b, memcpy dst d b.bufStart off n) := by
  induction n with
  | zero => simp [loadBytes]
  | succ n ih => simp [loadBytes, ih, memcpy_succ]

@[simp] theorem run_readEnd (b : RingBuf) : readEnd.run b = (b, b.ringbufEnd) := by
  simp [readEnd, ringbufEnd]

@[simp] theorem run_readUsed (b : RingBuf) : readUsed.run b = (b, b.ringbufUsed) := by
  by_cases h : b.bufHead ≤ b.bufTail <;> simp [readUsed, ringbufUsed, h]

@[simp] theorem run_readFree (b : RingBuf) : readFree.run b = (b, b.ringbufFree) := by
  by_cases h : b.bufHead ≤ b.bufTail <;> simp [readFree, ringbufFree, h]

@[simp] theorem run_setHead (head : ℕ) (b : RingBuf) : (setHead head).run b = ({ b with bufHead := head }, ()) := rfl

@[simp] theorem run_setTail (tail : ℕ) (b : RingBuf) : (setTail tail).run b = ({ b with bufTail := tail }, ()) := rfl

@[simp] theorem run_advanceTail (n : ℕ) (b : RingBuf) : (advanceTail n).run b =
    ({ b with bufTail := if ((b.bufTail + n : ℕ) : ℤ) > b.ringbufEnd then 0 else b.bufTail + n }, ()) := by
  have hend : ∀ tail, ({ b with bufTail := tail } : RingBuf).ringbufEnd = b.ringbufEnd := fun _ => rfl
  by_cases h : ((b.bufTail + n : ℕ) : ℤ) > b.ringbufEnd
  · simp only [advanceTail, run_bind, run_read, run_setTail, run_readEnd, hend, h, if_true]
  · simp only [advanceTail, run_bind, run_read, run_setTail, run_readEnd, hend, h, if_false, run_pure]

@[simp] theorem run_advanceHead (n : ℕ) (b : RingBuf) : (advanceHead n).run b =
    ({ b with bufHead := if ((b.bufHead + n : ℕ) : ℤ) > b.ringbufEnd then b.ringbufEnd.toNat else b.bufHead + n },
      ()) := by
  have hend : ∀ head, ({ b with bufHead := head } : RingBuf).ringbufEnd = b.ringbufEnd := fun _ => rfl
  by_cases h : ((b.bufHead + n : ℕ) : ℤ) > b.ringbufEnd
  · simp only [advanceHead, run_bind, run_read, run_setHead, run_readEnd, hend, h, if_true]
  · simp only [advanceHead, run_bind, run_read, run_setHead, run_readEnd, hend, h, if_false, run_pure]

/-- **Left alone, a push is `ringbufPush`.** -/
@[simp] theorem run_lockedPush (data : Option (ℕ → UInt8)) (size : ℤ) (b : RingBuf) :
    (lockedPush data size).run b = ringbufPush b data size := by
  cases data with
  | none => rfl
  | some src =>
      by_cases hpos : size > 0
      · by_cases hfree : size < toInt32 b.ringbufFree
        · by_cases hfit : toUInt32 (b.ringbufEnd - b.bufTail + 1) ≥ toUInt32 size
          · simp [lockedPush, ringbufPush, hpos, hfree, hfit]
            rfl
          · simp [lockedPush, ringbufPush, hpos, hfree, hfit]
        · simp [lockedPush, ringbufPush, hpos, hfree]
      · simp [lockedPush, ringbufPush, hpos]

/-- **Left alone, a pop is `ringbufPop`.** -/
@[simp] theorem run_lockedPop (data : Option (ℕ → UInt8)) (size : ℤ) (b : RingBuf) :
    (lockedPop data size).run b = ringbufPop b data size := by
  cases data with
  | none => rfl
  | some dst =>
      by_cases hpos : size > 0
      · by_cases hused : size < toInt32 b.ringbufUsed
        · by_cases hfit : toUInt32 (b.ringbufEnd - b.bufHead + 1) ≥ toUInt32 size
          · simp [lockedPop, ringbufPop, hpos, hused, hfit]
          · simp [lockedPop, ringbufPop, hpos, hused, hfit]
        · simp [lockedPop, ringbufPop, hpos, hused]
      · simp [lockedPop, ringbufPop, hpos]

@[simp] theorem LockedCall.run_body (c : LockedCall) (b : RingBuf) : c.body.run b = c.atomic b := by
  cases c with
  | push data size => simp [body, atomic]
  | pop data size => simp [body, atomic]
  | getUsedSize => simp [body, atomic, lockedGetUsedSize, ringbufGetUsedSize, ringbufUsed]
  | getFreeSize => simp [body, atomic, lockedGetFreeSize, ringbufGetFreeSize, ringbufFree]

/-! ## The bytes that go through -/

section Bytes

variable {τ : Type*} {N : ℕ} {b : RingBuf}

/-- The bytes that calls with these answers pushed. -/
def acceptedBytes (order : List (τ × LockedCall)) (answers : List (τ × Option (ℕ → UInt8) × ℤ)) : List UInt8 :=
  (order.zip answers).flatMap fun a =>
    match a.1.2 with
    | .push data _ => bytesAt data a.2.2.2
    | _ => []

/-- The bytes that calls with these answers popped. -/
def deliveredBytes (order : List (τ × LockedCall)) (answers : List (τ × Option (ℕ → UInt8) × ℤ)) : List UInt8 :=
  (order.zip answers).flatMap fun a =>
    match a.1.2 with
    | .pop _ _ => bytesAt a.2.2.1 a.2.2.2
    | _ => []

/-- The call is a pop of exactly the bytes up to the end of the buffer, more of them following at its start. -/
def LockedCall.AtEnd (b : RingBuf) : LockedCall → Prop
  | pop data size => PopsAtEnd ⟨b, [], []⟩ (.pop data size)
  | _ => False

/-- The buffer after some calls, with the bytes that went in and out. -/
def traffic (b : RingBuf) (order : List (τ × LockedCall)) : RingRun :=
  let p := sequential LockedCall.atomic b order
  ⟨p.1, acceptedBytes order p.2, deliveredBytes order p.2⟩

/-- One more call. -/
theorem traffic_concat (b : RingBuf) (order : List (τ × LockedCall)) (a : τ × LockedCall) :
    traffic b (order ++ [a]) =
      match a.2 with
      | .push data size => ringStep (traffic b order) (.push data size)
      | .pop data size => ringStep (traffic b order) (.pop data size)
      | _ => traffic b order := by
  have hlen := (length_sequential LockedCall.atomic b order).symm
  simp only [traffic, sequential_concat, sequentialCall, acceptedBytes, deliveredBytes, List.zip_append hlen]
  cases hc : a.2 <;> simp [LockedCall.atomic, ringStep, hc]

/-- **In the order of the calls, what is popped is what was pushed**, if no pop ends on the last byte while the data has
wrapped. -/
theorem ringInv_traffic (hN : (N : ℤ) ≤ intMax) (hb : Represents N b []) {order : List (τ × LockedCall)}
    (hend : EachStep (sequentialCall LockedCall.atomic) (fun p a => ¬ a.2.AtEnd p.1) (b, []) order) :
    RingInv N (traffic b order) := by
  induction order using List.reverseRecOn with
  | nil => exact ⟨[], hb, rfl⟩
  | append_singleton order a ih =>
      have hbefore := ih fun pre a' hpre => hend pre a' (hpre.trans (List.prefix_append _ _))
      have hlast : ¬ a.2.AtEnd (sequential LockedCall.atomic b order).1 := hend order a List.prefix_rfl
      rw [traffic_concat]
      cases hc : a.2 with
      | push data size => exact hbefore.push hN data size
      | pop data size =>
          rw [hc] at hlast
          exact hbefore.pop hN data size hlast
      | getUsedSize => exact hbefore
      | getFreeSize => exact hbefore

theorem holdsSome_sequential (hN : (N : ℤ) ≤ intMax) (hb : Represents N b []) (order : List (τ × LockedCall)) :
    HoldsSome N (sequential LockedCall.atomic b order).1 := by
  induction order using List.reverseRecOn with
  | nil => exact ⟨[], hb⟩
  | append_singleton order a ih =>
      simp only [sequential_concat, sequentialCall]
      cases a.2 with
      | push data size => exact ih.push hN data size
      | pop data size => exact ih.pop hN data size
      | getUsedSize => exact ih
      | getFreeSize => exact ih

variable [DecidableEq τ]

/-- **The ring buffer is linearizable.** Any threads make any calls, and run between each other's accesses as they
like. At any time, every thread can still make all its calls. Whenever the mutex is free: every thread took it for its
calls in their order; the buffer holds a queue, and it and the answers are those of the calls one after another in the
order in which they took the mutex; and if none of them is a pop that ends on the last byte while the data has wrapped,
the bytes that were popped, by whichever threads, are the first of the bytes that were pushed. -/
theorem ringbuf_linearizable (hN : (N : ℤ) ≤ intMax) (junk : ℕ → UInt8) (hb : ringbufCreate junk N = some b)
    (calls : τ → List LockedCall) (schedule : List τ) :
    let s := run (turn LockedCall.body) (start b calls) schedule
    (∀ t, ∃ more, let s' := run (turn LockedCall.body) s more
      s'.owner = none ∧ (s'.threads t).todo = []) ∧
    (s.owner = none →
      let p := sequential LockedCall.atomic b s.order
      (∀ t, ofThread t s.order ++ (s.threads t).todo = calls t ∧ (s.threads t).answers = ofThread t p.2) ∧
      s.mem = p.1 ∧ HoldsSome N s.mem ∧
      (EachStep (sequentialCall LockedCall.atomic) (fun p a => ¬ a.2.AtEnd p.1) (b, []) s.order →
        IsFifo N ⟨s.mem, acceptedBytes s.order p.2, deliveredBytes s.order p.2⟩)) := by
  intro s
  refine ⟨exists_made b calls schedule, fun hfree => ?_⟩
  intro p
  obtain ⟨hmem, hthreads⟩ := linearizable LockedCall.run_body schedule hfree
  unfold ringbufCreate at hb
  split_ifs at hb with hpos
  cases hb
  have hempty : Represents N ⟨N, 0, 0, junk⟩ [] := .create hpos junk
  refine ⟨hthreads, hmem, ?_, fun hend => ?_⟩
  · rw [show s.mem = p.1 from hmem]
    exact holdsSome_sequential hN hempty s.order
  · rw [show s.mem = p.1 from hmem]
    exact (ringInv_traffic hN hempty hend).isFifo hN

/-- One thread pushes a byte, and another one asks for the used size in the middle of it. -/
theorem ringbuf_linearizable_pair : HoldsSome 4 (run (turn LockedCall.body)
    (start ⟨4, 0, 0, fun _ => 0⟩ fun t => if t then [.push (some fun _ => 7) 1] else [.getUsedSize])
    ([true, false, true, false] ++ List.replicate 13 true)).mem :=
  ((ringbuf_linearizable (N := 4) (by decide) (fun _ => 0) rfl _ _).2 rfl).2.2.1

end Bytes

end AudioProcess
