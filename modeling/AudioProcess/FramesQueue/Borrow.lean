import AudioProcess.FramesQueue.Fifo

/-!
# The frame in the consumer's hands

`frames_queue_pop` hands out the slot's own block and frees the slot in the same critical section.

* `QueueInv.push_frame`: a push touches no block but the tail slot's;
* `QueueInv.push_touches`: and a push of a frame into a queue that is not full does touch that one;
* **`intact_iff`**: over a run, with any outcomes of the allocations, the popped frame stays intact
  until the consumer's next pop exactly when no frame is pushed while `N - 1` are pending and the
  consumer holds one.
-/

namespace AudioProcess

open CHeap Mem

/-- The frame the consumer holds was neither freed nor written since it was popped, and has the bytes
that were pushed. -/
def Intact (r : QueueRun) : Prop :=
  ∀ b, r.borrowed = some b → (∀ e ∈ r.heap.log.drop b.mark, b.buf ≠ some e.target) ∧
    r.heap.bytes b.buf b.size.toNat = some b.bytes

/-- The call is a push of a frame while the consumer holds one and the `N - 1` other slots are full. -/
def Reclaims (N : ℕ) (r : QueueRun) : QueueCall → Prop
  | .push _ buf size => r.heap.fault = false ∧ r.borrowed ≠ none ∧ buf ≠ none ∧ size > 0 ∧
      r.pending.length + 1 = N
  | .pop => False

section Push

variable {N : ℕ} {h : Heap} {q : FramesQueue} {pending : List (List UInt8)}

theorem QueueInv.not_ready_tail (hq : QueueInv N h q pending) (hl : pending.length < N) :
    q.tailFrame.ready = false := by
  rw [Bool.eq_false_iff]
  intro hr
  have := hq.ready_tail.mp hr
  omega

/-- What a push of a frame into a queue that is not full does, whatever its allocation does. -/
structure Pushed (N : ℕ) (h : Heap) (q : FramesQueue) (pending : List (List UInt8)) (xs : List UInt8)
    (p : Heap × FramesQueue × ℤ) : Prop where
  frame : Heap.Frame h p.1 {x | q.tailFrame.data = some x}
  head : p.2.1.indexHead = q.indexHead
  other : ∀ i, i ≠ q.indexTail → (p.2.1.frames i).data = (q.frames i).data
  queue : p.1.fault = false →
    QueueInv N p.1 p.2.1 (if p.2.2 = 0 then pending ++ [xs] else pending)

theorem QueueInv.push_frame (hq : QueueInv N h q pending) (malloc : Option (ℕ → UInt8)) (src : ℕ → UInt8)
    {size : UInt32} (h₀ : size ≠ 0) (hl : pending.length < N) :
    Pushed N h q pending (readCells src 0 size.toNat) (framesQueuePush malloc h q (some src) size) := by
  obtain ⟨hq', hg⟩ := hq.grow hl (hq.not_ready_tail hl) malloc size
  rw [hq.push_eq _ _ h₀ hl]
  by_cases hok : (growSlot malloc h q size).2.2 = true
  · rw [if_pos hok]
    refine ⟨?_, hg.head, fun i hi => ?_, fun hf => ?_⟩
    · exact hg.frame.trans (Heap.frame_memcpy ..) fun p hp hlt =>
        (hg.data p hp).resolve_right (by omega)
    · rw [(storeFrame_data ..).1, hg.other i hi]
    · rw [if_pos rfl]
      cases hd : (growSlot malloc h q size).2.1.tailFrame.data with
      | none =>
        -- a null slot that claims to be large enough: the `memcpy` has no defined behaviour
        simp [storeFrame, hd, Heap.memcpy] at hf
      | some p =>
        obtain ⟨b, hb, hsz⟩ := hg.room hok p hd
        exact hq'.store hl hd hb src hsz
  · rw [if_neg hok]
    refine ⟨hg.frame, hg.head, fun i hi => by rw [hg.other i hi], fun _ => ?_⟩
    rw [if_neg (show ¬ (-1 : ℤ) = 0 by decide)]
    exact hq'

/-- The tail slot's block is freed if it is too small. -/
theorem QueueInv.grow_touches (hq : QueueInv N h q pending) {p : ℕ} (hp : q.tailFrame.data = some p)
    {size : UInt32} (hs : q.tailFrame.size.toUInt32 < size) (malloc : Option (ℕ → UInt8)) :
    (growSlot malloc h q size).1.log = h.log ++ [.free p] := by
  obtain ⟨b, hb, -⟩ := hq.owned _ hq.tail_lt p hp
  have hfree : (h.free p).log = h.log ++ [.free p] := by simp [Heap.free, hb]
  unfold growSlot
  simp only [if_pos hs, hp, Option.elim]
  cases malloc with
  | none => exact hfree
  | some junk => exact hfree

/-- **A push of a frame into a queue that is not full frees or overwrites the tail slot's block.** -/
theorem QueueInv.push_touches (hq : QueueInv N h q pending) (malloc : Option (ℕ → UInt8))
    (src : ℕ → UInt8) {size : UInt32} (h₀ : size ≠ 0) (hl : pending.length < N) {p : ℕ}
    (hp : q.tailFrame.data = some p) :
    ∃ es, (framesQueuePush malloc h q (some src) size).1.log = h.log ++ es ∧ ∃ e ∈ es, e.target = p := by
  rw [hq.push_eq _ _ h₀ hl]
  by_cases hs : q.tailFrame.size.toUInt32 < size
  · have hlog := hq.grow_touches hp hs malloc
    split_ifs
    · obtain ⟨es, he, -⟩ := (Heap.frame_memcpy (h := (growSlot malloc h q size).1)
        (growSlot malloc h q size).2.1.tailFrame.data src size.toNat).log
      refine ⟨[.free p] ++ es, ?_, .free p, by simp, rfl⟩
      rw [← List.append_assoc, ← hlog]
      exact he
    · exact ⟨_, hlog, .free p, by simp, rfl⟩
  · obtain ⟨b, hb, hsz⟩ := hq.owned _ hq.tail_lt p hp
    have hle : size.toNat ≤ b.size := by
      rw [hsz]
      exact UInt32.le_iff_toNat_le.mp (UInt32.not_lt.mp hs)
    have hg : growSlot malloc h q size = (h, q, true) := by simp only [growSlot, if_neg hs]
    rw [hg]
    refine ⟨[.write p], ?_, .write p, by simp, rfl⟩
    show (h.memcpy q.tailFrame.data src size.toNat).log = _
    rw [hp, Heap.memcpy_eq hb hle]
    rfl

end Push

/-! ## Runs -/

section Runs

variable {N : ℕ} {r : QueueRun}

/-- The slot just before the head, where the last popped frame was. -/
def lastSlot (N : ℕ) (q : FramesQueue) : ℕ := (q.indexHead + (N - 1)) % N

/-- The borrowed frame is intact and still in the slot before the head. -/
structure BorrowInv (N : ℕ) (r : QueueRun) : Prop where
  intact : Intact r
  queue : r.heap.fault = false → QueueInv N r.heap r.queue r.pending
  slot : r.heap.fault = false → ∀ b, r.borrowed = some b → r.pending.length < N ∧
    b.mark ≤ r.heap.log.length ∧ ∃ p, b.buf = some p ∧
      (r.queue.frames (lastSlot N r.queue)).data = some p

theorem BorrowInv.start (hN : 0 < N) (h : Heap) (junk : ℕ → Aframe) :
    BorrowInv N (queueStart h junk N) where
  intact b hb := by cases hb
  queue _ := QueueInv.create hN h junk
  slot _ b hb := by cases hb

theorem lastSlot_lt (hN : 0 < N) (q : FramesQueue) : lastSlot N q < N := Nat.mod_lt _ hN

theorem queueStep_fault (hf : r.heap.fault = true) (c : QueueCall) : queueStep r c = r := if_pos hf

theorem BorrowInv.pop (hr : BorrowInv N r) (hf : r.heap.fault = false) : BorrowInv N (queueStep r .pop) := by
  have hq := hr.queue hf
  rcases hp : r.pending with _ | ⟨xs, rest⟩
  · have he := (hp ▸ hq).pop_of_empty
    have hstep : queueStep r .pop = { r with borrowed := none } := by simp [queueStep, hf, he]
    rw [hstep]
    exact ⟨(fun b hb => by cases hb), fun _ => hq, fun _ b hb => by cases hb⟩
  · have hq₀ := hp ▸ hq
    obtain ⟨hq', hret, size, hout, hsz, hb⟩ := hq₀.pop
    have hr₀ : (r.queue.frames r.queue.indexHead).ready = true := hq₀.ready_head.mpr (by simp)
    have hmod : (framesQueuePop r.queue).1.indexHead = (r.queue.indexHead + 1) % N := by
      have := Cyclic.next_mod hq.pos r.queue.indexHead
      rw [Nat.mod_eq_of_lt hq.head_lt] at this
      rw [← this]
      simp only [framesQueuePop, if_pos hr₀, hq.num, Cyclic.next]
    have hlast : lastSlot N (framesQueuePop r.queue).1 = r.queue.indexHead := by
      have := hq.pos
      rw [lastSlot, hmod, Nat.mod_add_mod, show r.queue.indexHead + 1 + (N - 1) = r.queue.indexHead + N by
        omega, Nat.add_mod_right, Nat.mod_eq_of_lt hq.head_lt]
    obtain ⟨p, hpd⟩ : ∃ p, (r.queue.frames r.queue.indexHead).data = some p := by
      cases hd : (r.queue.frames r.queue.indexHead).data with
      | none => rw [hd] at hb; cases hb
      | some p => exact ⟨p, rfl⟩
    have hstep : queueStep r .pop = { r with
        queue := (framesQueuePop r.queue).1
        pending := rest
        borrowed := some ⟨some p, size, xs, r.heap.log.length⟩ } := by
      simp [queueStep, hf, hp, hret, hout, hpd]
    rw [hstep]
    refine ⟨?_, fun _ => hq', ?_⟩
    · rintro b hb'
      obtain rfl := Option.some.inj hb'
      refine ⟨by simp, ?_⟩
      show r.heap.bytes (some p) size.toNat = some xs
      rw [hsz, ← hpd, hb]
    · rintro _ b hb'
      obtain rfl := Option.some.inj hb'
      refine ⟨hq₀.length_le, le_rfl, p, rfl, ?_⟩
      show ((framesQueuePop r.queue).1.frames (lastSlot N (framesQueuePop r.queue).1)).data = some p
      rw [hlast, (framesQueuePop_data ..).1, hpd]

/-- Of a push that finds no room, nothing remains. -/
theorem BorrowInv.push_of_not (hr : BorrowInv N r) (hf : r.heap.fault = false)
    (malloc : Option (ℕ → UInt8)) {buf : Option (ℕ → UInt8)} {size : UInt32}
    (hs : buf = none ∨ size = 0 ∨ r.pending.length = N) : queueStep r (.push malloc buf size) = r := by
  simp only [queueStep, hf, (hr.queue hf).push_of_not malloc hs]
  simp

/-- A push that does not reach the slot before the head leaves the borrowed frame alone. -/
theorem BorrowInv.push (hr : BorrowInv N r) (hf : r.heap.fault = false) (malloc : Option (ℕ → UInt8))
    (src : ℕ → UInt8) {size : UInt32} (h₀ : size ≠ 0) (hl : r.pending.length < N)
    (hfar : r.borrowed ≠ none → r.pending.length + 1 < N) :
    BorrowInv N (queueStep r (.push malloc (some src) size)) := by
  have hq := hr.queue hf
  have hp := hq.push_frame malloc src h₀ hl
  simp only [queueStep, hf, Option.elim]
  generalize framesQueuePush malloc r.heap r.queue (some src) size = res at hp
  have key : ∀ b, r.borrowed = some b → r.pending.length + 1 < N ∧ b.mark ≤ r.heap.log.length ∧
      ∃ p, b.buf = some p ∧ (r.queue.frames (lastSlot N r.queue)).data = some p ∧
        lastSlot N r.queue ≠ r.queue.indexTail := fun b hb => by
    have hlt := hfar (by simp [hb])
    obtain ⟨-, hm, p, hbuf, hslot⟩ := hr.slot hf b hb
    exact ⟨hlt, hm, p, hbuf, hslot, hq.cell_ne_tail (by omega) (by omega) hl⟩
  refine ⟨fun b hb => ?_, fun hf' => by simpa using hp.queue hf', fun hf' b hb => ?_⟩
  · obtain ⟨hlt, hm, p, hbuf, hslot, hne⟩ := key b hb
    obtain ⟨hev, hbytes⟩ := hr.intact b hb
    have hpf := hq.lt_fresh (lastSlot_lt hq.pos _) hslot
    obtain ⟨es, hes, htgt⟩ := hp.frame.log
    refine ⟨fun e he => ?_, ?_⟩
    · change e ∈ res.1.log.drop b.mark at he
      rw [hes, List.drop_append_of_le_length hm] at he
      rcases List.mem_append.mp he with he | he
      · exact hev e he
      · rintro hb'
        obtain rfl : p = e.target := Option.some.inj (hbuf.symm.trans hb')
        exact hne (hq.apart _ (lastSlot_lt hq.pos _) _ hq.tail_lt _ hslot (htgt e he hpf))
    · show res.1.bytes b.buf b.size.toNat = some b.bytes
      rw [bytes_congr _ _, hbytes]
      intro p' hp'
      obtain rfl : p = p' := Option.some.inj (hbuf.symm.trans hp')
      exact hq.block_of_ne hp.frame (lastSlot_lt hq.pos _) hne hslot
  · obtain ⟨hlt, hm, p, hbuf, hslot, hne⟩ := key b hb
    obtain ⟨es, hes, -⟩ := hp.frame.log
    refine ⟨?_, ?_, p, hbuf, ?_⟩
    · show (if res.2.2 = 0 then _ else _ : List _).length < N
      split_ifs
      · rw [List.length_append, List.length_singleton]
        exact hlt
      · exact hl
    · show b.mark ≤ res.1.log.length
      rw [hes, List.length_append]
      omega
    · show (res.2.1.frames (lastSlot N res.2.1)).data = some p
      rw [show lastSlot N res.2.1 = lastSlot N r.queue by rw [lastSlot, hp.head, lastSlot], hp.other _ hne]
      exact hslot

theorem not_intact_of_reclaims (hr : BorrowInv N r) {c : QueueCall} (hc : Reclaims N r c) :
    ¬ Intact (queueStep r c) := by
  cases c with
  | pop => exact hc.elim
  | push malloc buf size =>
    obtain ⟨hf, hb, hbuf, h₀, hl⟩ := hc
    obtain ⟨b, hb⟩ := Option.ne_none_iff_exists'.mp hb
    obtain ⟨src, rfl⟩ := Option.ne_none_iff_exists'.mp hbuf
    have hq := hr.queue hf
    obtain ⟨-, hm, p, hp, hslot⟩ := hr.slot hf b hb
    have htail : lastSlot N r.queue = r.queue.indexTail := by
      rw [hq.tail, lastSlot, show N - 1 = r.pending.length by omega]
    rw [htail] at hslot
    obtain ⟨es, hes, e, he, ht⟩ := hq.push_touches malloc src (UInt32.pos_iff_ne_zero.mp h₀) (by omega) hslot
    intro hi
    refine (hi b ?_).1 e ?_ (by rw [hp, ht])
    · simpa [queueStep, hf] using hb
    · simp only [queueStep, hf]
      show e ∈ (framesQueuePush malloc r.heap r.queue (some src) size).1.log.drop b.mark
      rw [hes, List.drop_append_of_le_length hm]
      exact List.mem_append_right _ he

theorem BorrowInv.step (hr : BorrowInv N r) {c : QueueCall} (hc : ¬ Reclaims N r c) :
    BorrowInv N (queueStep r c) := by
  cases hf : r.heap.fault with
  | true => rwa [queueStep_fault hf]
  | false =>
    cases c with
    | pop => exact hr.pop hf
    | push malloc buf size =>
      by_cases hs : buf = none ∨ size = 0 ∨ r.pending.length = N
      · rwa [hr.push_of_not hf malloc hs]
      · push Not at hs
        obtain ⟨hbuf, h₀, hne⟩ := hs
        obtain ⟨src, rfl⟩ := Option.ne_none_iff_exists'.mp hbuf
        have hl : r.pending.length < N := lt_of_le_of_ne (hr.queue hf).length_le hne
        refine hr.push hf malloc src h₀ hl fun hb => lt_of_le_of_ne hl fun he => hc ?_
        exact ⟨hf, hb, hbuf, UInt32.pos_iff_ne_zero.mpr h₀, he⟩

/-- **A popped frame stays intact until the consumer's next pop exactly as long as no frame is pushed
while the consumer holds it and all other slots are full.** -/
theorem intact_iff (hN : 1 ≤ N) (h : Heap) (junk : ℕ → Aframe) (calls : List QueueCall) :
    Runs.Always queueStep Intact (queueStart h junk N) calls ↔
      Runs.EachStep queueStep (fun r c => ¬ Reclaims N r c) (queueStart h junk N) calls :=
  Runs.always_iff_eachStep (I := BorrowInv N) (fun _ hr => hr.intact) (fun _ _ hr hc => hr.step hc)
    (fun _ _ hr hc => not_intact_of_reclaims hr (not_not.mp hc)) (BorrowInv.start hN h junk)

theorem intact_iff_two : Runs.Always queueStep Intact (queueStart Heap.empty (fun _ => ⟨true, 1, 1, none⟩) 2)
      [.push (some fun _ => 0) (some fun _ => 7) 3, .pop] ↔
    Runs.EachStep queueStep (fun r c => ¬ Reclaims 2 r c)
      (queueStart Heap.empty (fun _ => ⟨true, 1, 1, none⟩) 2)
      [.push (some fun _ => 0) (some fun _ => 7) 3, .pop] :=
  intact_iff (by decide) Heap.empty _ _

/-- In a queue of one slot, push a frame, pop it, push another: the consumer's frame is overwritten. -/
theorem not_intact_one : ¬ ∀ N : ℕ, 1 ≤ N → ∀ h junk calls,
    Runs.Always queueStep Intact (queueStart h junk N) calls := by
  intro h
  have hlast := h 1 le_rfl Heap.empty (fun _ => ⟨false, 0, 0, none⟩)
    [.push (some fun _ => 0) (some fun _ => 7) 1, .pop, .push none (some fun _ => 8) 1] _ List.prefix_rfl
  exact (hlast ⟨some 0, 1, [7], 1⟩ rfl).1 (.write 0) (by decide) rfl

end Runs

end AudioProcess
