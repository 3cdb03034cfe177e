import AudioProcess.Lib.Run
import AudioProcess.FramesQueue.Model

/-!
# The frame queue as a bounded queue of frames

* `QueueInv N h q pending`: the ready slots are the cyclic interval from head to tail and hold the
  pending frames; every slot owns its block, and no two slots share one;
* `QueueInv.grow`, `QueueInv.store`, `QueueInv.pop`: what the parts of the calls do to it;
* `QueueRun`, `queueStep`: runs of pushes and pops, with the frames still to be popped and the frame
  the consumer holds;
* **`fifoStep_of_run`**: with every allocation succeeding, every call of every run behaves as on a
  bounded queue.
-/

namespace AudioProcess

open CHeap Mem

/-- The slot `f` is ready with the frame `xs`. -/
structure SlotHolds (h : Heap) (f : Aframe) (xs : List UInt8) : Prop where
  ready : f.ready = true
  validSize : f.validSize.toUInt32.toNat = xs.length
  bytes : h.bytes f.data xs.length = some xs

/-- The queue `q` over the heap `h` has the pending frames `pending`. -/
structure QueueInv (N : ℕ) (h : Heap) (q : FramesQueue) (pending : List (List UInt8)) : Prop where
  num : q.numFrames = N
  head_lt : q.indexHead < N
  length_le : pending.length ≤ N
  tail : q.indexTail = (q.indexHead + pending.length) % N
  holds : Cyclic.Holds N (fun i xs => SlotHolds h (q.frames i) xs) q.indexHead pending
  idle : ∀ k, pending.length ≤ k → k < N → (q.frames ((q.indexHead + k) % N)).ready = false
  owned : ∀ i < N, ∀ p, (q.frames i).data = some p →
    ∃ b, h.block p = some b ∧ b.size = (q.frames i).size.toUInt32.toNat
  apart : ∀ i < N, ∀ j < N, ∀ p, (q.frames i).data = some p → (q.frames j).data = some p → i = j

theorem bytes_congr {h h' : Heap} {d : Option ℕ} (hd : ∀ p, d = some p → h'.block p = h.block p) (n : ℕ) :
    h'.bytes d n = h.bytes d n := by
  cases d with
  | none => rfl
  | some p => simp only [Heap.bytes, Option.bind_some, hd p rfl]

theorem bytes_eq_some {h : Heap} {p : ℕ} {b : Block} {n : ℕ} (hp : h.block p = some b) (hn : n ≤ b.size) :
    h.bytes (some p) n = some (readCells b.bytes 0 n) := by
  simp [Heap.bytes, hp, hn]

namespace QueueInv

variable {N : ℕ} {h h' : Heap} {q : FramesQueue} {pending : List (List UInt8)}

theorem create (hN : 0 < N) (h : Heap) (junk : ℕ → Aframe) :
    QueueInv N h (framesQueueCreate junk N) [] where
  num := rfl
  head_lt := hN
  length_le := Nat.zero_le _
  tail := by simp [framesQueueCreate]
  holds := Cyclic.Holds.nil
  idle k _ hk := by simp [framesQueueCreate, Nat.mod_lt _ hN]
  owned i hi p hp := by simp [framesQueueCreate, hi] at hp
  apart i hi j _ p hp := by simp [framesQueueCreate, hi] at hp

theorem pos (hq : QueueInv N h q pending) : 0 < N := Nat.zero_lt_of_lt hq.head_lt

theorem tail_lt (hq : QueueInv N h q pending) : q.indexTail < N := by
  rw [hq.tail]; exact Nat.mod_lt _ hq.pos

/-- The tail slot is ready exactly when the queue is full. -/
theorem ready_tail (hq : QueueInv N h q pending) : q.tailFrame.ready = true ↔ pending.length = N := by
  unfold FramesQueue.tailFrame
  rw [hq.tail]
  constructor
  · intro hr
    by_contra hne
    rw [hq.idle pending.length le_rfl (lt_of_le_of_ne hq.length_le hne)] at hr
    cases hr
  · intro hl
    have hN := hq.pos
    rw [hl, ← Nat.add_mod_right]
    have := hq.holds 0 pending[0] (List.getElem?_eq_getElem (by omega))
    simpa using this.ready

/-- The head slot is ready exactly when a frame is pending. -/
theorem ready_head (hq : QueueInv N h q pending) : (q.frames q.indexHead).ready = true ↔ pending ≠ [] := by
  have hmod : (q.indexHead + 0) % N = q.indexHead := Nat.mod_eq_of_lt hq.head_lt
  constructor
  · rintro hr rfl
    have := hq.idle 0 le_rfl hq.pos
    rw [hmod, hr] at this
    cases this
  · intro hne
    obtain ⟨x, xs, rfl⟩ := List.exists_cons_of_ne_nil hne
    have := (hq.holds 0 x rfl).ready
    rwa [hmod] at this

/-- A slot other than the tail keeps its block when only the tail's block is touched. -/
theorem block_of_ne (hq : QueueInv N h q pending) (hF : Heap.Frame h h' {p | q.tailFrame.data = some p})
    {i : ℕ} (hi : i < N) (hne : i ≠ q.indexTail) {p : ℕ} (hp : (q.frames i).data = some p) :
    h'.block p = h.block p := by
  obtain ⟨b, hb, -⟩ := hq.owned i hi p hp
  exact hF.block p (Heap.lt_fresh hb) fun ht => hne (hq.apart i hi _ hq.tail_lt p hp ht)

/-- The block of a slot is not a new one. -/
theorem lt_fresh (hq : QueueInv N h q pending) {i : ℕ} (hi : i < N) {p : ℕ}
    (hp : (q.frames i).data = some p) : p < h.fresh := by
  obtain ⟨b, hb, -⟩ := hq.owned i hi p hp
  exact Heap.lt_fresh hb

theorem cell_lt (hq : QueueInv N h q pending) (k : ℕ) : (q.indexHead + k) % N < N :=
  Nat.mod_lt _ hq.pos

theorem cell_ne_tail (hq : QueueInv N h q pending) {k : ℕ} (hk : k < N) (hne : k ≠ pending.length)
    (hl : pending.length < N) : (q.indexHead + k) % N ≠ q.indexTail := by
  rw [hq.tail]
  rcases Nat.lt_or_gt_of_ne hne with hlt | hgt
  · exact Cyclic.cell_ne hlt (by omega)
  · exact (Cyclic.cell_ne hgt (by omega)).symm

theorem setTail_tailFrame (q : FramesQueue) (f : Aframe) : (q.setTail f).tailFrame = f :=
  Function.update_self ..

theorem setTail_frames_ne (q : FramesQueue) (f : Aframe) {i : ℕ} (hi : i ≠ q.indexTail) :
    (q.setTail f).frames i = q.frames i := Function.update_of_ne hi ..

theorem setTail_frames_tail (q : FramesQueue) (f : Aframe) : (q.setTail f).frames q.indexTail = f :=
  setTail_tailFrame q f

/-- The pending slots keep their frames when only the idle tail slot is replaced. -/
theorem holds_setTail (hq : QueueInv N h q pending) (hl : pending.length < N)
    (hF : Heap.Frame h h' {p | q.tailFrame.data = some p}) (f : Aframe) :
    Cyclic.Holds N (fun i xs => SlotHolds h' ((q.setTail f).frames i) xs) q.indexHead pending := by
  refine hq.holds.mono fun k hk xs hx => ?_
  have hne := hq.cell_ne_tail (k := k) (by omega) (by omega) hl
  rw [setTail_frames_ne q f hne]
  refine ⟨hx.ready, hx.validSize, ?_⟩
  rw [bytes_congr fun p hp => hq.block_of_ne hF (hq.cell_lt k) hne hp, hx.bytes]

/-- Replacing the idle tail slot keeps the invariant, if its new block is its old one or a new one. -/
theorem setTail (hq : QueueInv N h q pending) (hl : pending.length < N) {f : Aframe}
    (hF : Heap.Frame h h' {p | q.tailFrame.data = some p}) (hready : f.ready = false)
    (howned : ∀ p, f.data = some p → (q.tailFrame.data = some p ∨ h.fresh ≤ p) ∧
      ∃ b, h'.block p = some b ∧ b.size = f.size.toUInt32.toNat) :
    QueueInv N h' (q.setTail f) pending := by
  have hframe : ∀ i, i ≠ q.indexTail → (q.setTail f).frames i = q.frames i := fun i hi =>
    setTail_frames_ne q f hi
  have htail : (q.setTail f).frames q.indexTail = f := setTail_frames_tail q f
  have hdata : ∀ i < N, i ≠ q.indexTail → ∀ p, f.data = some p → (q.frames i).data ≠ some p := by
    intro i hi hne p hp hip
    rcases (howned p hp).1 with ht | hge
    · exact hne (hq.apart i hi _ hq.tail_lt p hip ht)
    · exact absurd (hq.lt_fresh hi hip) (by omega)
  refine ⟨hq.num, hq.head_lt, hq.length_le, hq.tail, hq.holds_setTail hl hF f, ?_, ?_, ?_⟩
  · intro k hk hkN
    show ((q.setTail f).frames ((q.indexHead + k) % N)).ready = false
    by_cases e : k = pending.length
    · rw [e, ← hq.tail, htail, hready]
    · rw [hframe _ (hq.cell_ne_tail hkN e hl), hq.idle k hk hkN]
  · intro i hi p hp
    by_cases e : i = q.indexTail
    · rw [e, htail] at hp ⊢
      exact (howned p hp).2
    · rw [hframe i e] at hp ⊢
      rw [hq.block_of_ne hF hi e hp]
      exact hq.owned i hi p hp
  · intro i hi j hj p hip hjp
    by_cases ei : i = q.indexTail <;> by_cases ej : j = q.indexTail
    · rw [ei, ej]
    · rw [ei, htail] at hip
      rw [hframe j ej] at hjp
      exact absurd hjp (hdata j hj ej p hip)
    · rw [ej, htail] at hjp
      rw [hframe i ei] at hip
      exact absurd hip (hdata i hi ei p hjp)
    · rw [hframe i ei] at hip
      rw [hframe j ej] at hjp
      exact hq.apart i hi j hj p hip hjp

/-- What `growSlot` does. -/
structure Grown (h : Heap) (q : FramesQueue) (size : UInt32) (g : Heap × FramesQueue × Bool) : Prop where
  frame : Heap.Frame h g.1 {p | q.tailFrame.data = some p}
  fault : g.1.fault = h.fault
  tail : g.2.1.indexTail = q.indexTail
  head : g.2.1.indexHead = q.indexHead
  ready : g.2.1.tailFrame.ready = false
  data : ∀ p, g.2.1.tailFrame.data = some p → q.tailFrame.data = some p ∨ h.fresh ≤ p
  other : ∀ i, i ≠ q.indexTail → g.2.1.frames i = q.frames i
  room : g.2.2 = true → ∀ p, g.2.1.tailFrame.data = some p →
    ∃ b, g.1.block p = some b ∧ size.toNat ≤ b.size
  fails : g.2.2 = false → g.2.1.tailFrame.data = none

/-- Freeing the tail's block touches nothing else. -/
theorem frame_freeTail (hq : QueueInv N h q pending) :
    Heap.Frame h (q.tailFrame.data.elim h h.free) {p | q.tailFrame.data = some p} ∧
      (q.tailFrame.data.elim h h.free).fault = h.fault := by
  cases e : q.tailFrame.data with
  | none => exact ⟨Heap.Frame.refl .., rfl⟩
  | some p =>
    obtain ⟨b, hb, -⟩ := hq.owned _ hq.tail_lt p e
    refine ⟨?_, Heap.fault_free hb⟩
    exact (Heap.frame_free p).trans (Heap.Frame.refl _ {p}) (by simp) |>.mono (by simp)

theorem grow (hq : QueueInv N h q pending) (hl : pending.length < N) (hr : q.tailFrame.ready = false)
    (malloc : Option (ℕ → UInt8)) (size : UInt32) :
    QueueInv N (growSlot malloc h q size).1 (growSlot malloc h q size).2.1 pending ∧
      Grown h q size (growSlot malloc h q size) := by
  obtain ⟨hF, hfault⟩ := hq.frame_freeTail
  unfold growSlot
  by_cases hs : q.tailFrame.size.toUInt32 < size
  · cases malloc with
    | none =>
      simp only [if_pos hs]
      refine ⟨hq.setTail hl hF hr (by simp), hF, hfault, rfl, rfl, ?_, ?_, ?_, by simp, ?_⟩
      · rw [setTail_tailFrame, hr]
      · simp [setTail_tailFrame]
      · exact fun i hi => setTail_frames_ne q _ hi
      · simp [setTail_tailFrame]
    | some junk =>
      simp only [if_pos hs]
      generalize hh₁ : q.tailFrame.data.elim h h.free = h₁ at hF hfault
      have hF' := hF.trans (Heap.frame_malloc (h := h₁) size.toNat junk) (by simp)
      have hb := Heap.block_malloc_self (h := h₁) size.toNat junk
      have howned : ∀ p, some (h₁.malloc size.toNat junk).1 = some p →
          (q.tailFrame.data = some p ∨ h.fresh ≤ p) ∧
            ∃ b, (h₁.malloc size.toNat junk).2.block p = some b ∧
              b.size = size.toInt32.toUInt32.toNat := by
        rintro p hp
        cases hp
        exact ⟨Or.inr hF.fresh, _, hb, by simp⟩
      refine ⟨hq.setTail hl hF' hr howned, hF', hfault, rfl, rfl, ?_, ?_, ?_, ?_, by simp⟩
      · rw [setTail_tailFrame, hr]
      · intro p hp
        rw [setTail_tailFrame] at hp
        exact (howned p hp).1
      · exact fun i hi => setTail_frames_ne q _ hi
      · intro _ p hp
        rw [setTail_tailFrame] at hp
        obtain ⟨-, b, hb, hsz⟩ := howned p hp
        exact ⟨b, hb, by simp [hsz]⟩
  · simp only [if_neg hs]
    refine ⟨hq, Heap.Frame.refl .., rfl, rfl, rfl, hr, fun p hp => Or.inl hp, fun i _ => rfl, ?_, by simp⟩
    intro _ p hp
    obtain ⟨b, hb, hsz⟩ := hq.owned _ hq.tail_lt p hp
    refine ⟨b, hb, ?_⟩
    rw [hsz]
    exact UInt32.le_iff_toNat_le.mp (UInt32.not_lt.mp hs)

/-- The tail slot once a frame is copied into its block. -/
theorem slotHolds_store {p : ℕ} {b : Block} {f : Aframe} (hb : h.block p = some b) (hf : f.data = some p)
    (src : ℕ → UInt8) {size : UInt32} (hs : size.toNat ≤ b.size) :
    SlotHolds (h.writeBlock p b hb src size.toNat) { f with validSize := size.toInt32, ready := true }
      (readCells src 0 size.toNat) := by
  have hnew : (h.writeBlock p b hb src size.toNat).block p =
      some { b with bytes := memcpy b.bytes 0 src 0 size.toNat } := Function.update_self ..
  refine ⟨rfl, by simp, ?_⟩
  rw [length_readCells, hf, bytes_eq_some hnew hs]
  refine congrArg some (readCells_congr fun k hk => ?_)
  simp only [Nat.zero_add]
  rw [memcpy_of_mem (by omega) (by omega), Nat.zero_add, Nat.sub_zero]

/-- **Storing a frame in the tail slot makes it the newest pending frame.** -/
theorem store (hq : QueueInv N h q pending) (hl : pending.length < N) {p : ℕ} {b : Block}
    (hd : q.tailFrame.data = some p) (hb : h.block p = some b) (src : ℕ → UInt8) {size : UInt32}
    (hs : size.toNat ≤ b.size) :
    QueueInv N (storeFrame h q src size).1 (storeFrame h q src size).2
      (pending ++ [readCells src 0 size.toNat]) := by
  have hmem : h.memcpy q.tailFrame.data src size.toNat = h.writeBlock p b hb src size.toNat := by
    rw [hd, Heap.memcpy_eq hb hs]
  have hF : Heap.Frame h (h.writeBlock p b hb src size.toNat) {p | q.tailFrame.data = some p} :=
    (Heap.frame_writeBlock hb src _).mono (by simp [hd])
  set f : Aframe := { q.tailFrame with validSize := size.toInt32, ready := true } with hf
  have hnew : (h.writeBlock p b hb src size.toNat).block p =
      some { b with bytes := memcpy b.bytes 0 src 0 size.toNat } := Function.update_self ..
  unfold storeFrame
  rw [hmem]
  refine ⟨hq.num, hq.head_lt, by simp; omega, ?_, ?_, ?_, ?_, ?_⟩
  · simp only [hq.num, List.length_append, List.length_singleton]
    show Cyclic.next N q.indexTail = _
    rw [hq.tail, Cyclic.next_mod hq.pos, Nat.add_assoc]
    rfl
  · refine Cyclic.Holds.append (hq.holds_setTail hl hF f) fun k y hy => ?_
    obtain ⟨rfl, rfl⟩ : k = 0 ∧ readCells src 0 size.toNat = y := by
      cases k <;> simp_all
    have hcell : (q.indexHead + pending.length + 0) % N = q.indexTail := hq.tail.symm
    show SlotHolds (h.writeBlock p b hb src size.toNat)
      ((q.setTail f).frames ((q.indexHead + pending.length + 0) % N)) _
    rw [hcell, setTail_frames_tail q f]
    exact slotHolds_store hb hd src hs
  · intro k hk hkN
    simp only [List.length_append, List.length_singleton] at hk
    show ((q.setTail f).frames ((q.indexHead + k) % N)).ready = false
    rw [setTail_frames_ne _ _ (hq.cell_ne_tail hkN (by omega) hl)]
    exact hq.idle k (by omega) hkN
  · intro i hi p' hp'
    change ((q.setTail f).frames i).data = some p' at hp'
    show ∃ b', (h.writeBlock p b hb src size.toNat).block p' = some b' ∧
      b'.size = ((q.setTail f).frames i).size.toUInt32.toNat
    rcases eq_or_ne i q.indexTail with rfl | hne
    · rw [setTail_frames_tail q f] at hp' ⊢
      obtain rfl : p = p' := Option.some.inj (hd.symm.trans hp')
      obtain ⟨b', hb', hsz⟩ := hq.owned _ hq.tail_lt p hd
      obtain rfl : b = b' := Option.some.inj (hb.symm.trans hb')
      exact ⟨_, hnew, hsz⟩
    · rw [setTail_frames_ne _ _ hne] at hp' ⊢
      rw [hq.block_of_ne hF hi hne hp']
      exact hq.owned i hi p' hp'
  · have hdata : ∀ i, ((q.setTail f).frames i).data = (q.frames i).data := fun i => by
      by_cases e : i = q.indexTail
      · rw [e, setTail_frames_tail q f]
        rfl
      · rw [setTail_frames_ne _ _ e]
    intro i hi j hj p' hip hjp
    exact hq.apart i hi j hj p' ((hdata i).symm.trans hip) ((hdata j).symm.trans hjp)

/-- **A pop takes the oldest pending frame.** -/
theorem pop {xs : List UInt8} (hq : QueueInv N h q (xs :: pending)) :
    QueueInv N h (framesQueuePop q).1 pending ∧ (framesQueuePop q).2.1 = 0 ∧
      ∃ size, (framesQueuePop q).2.2 = some ((q.frames q.indexHead).data, size) ∧
        size.toNat = xs.length ∧ h.bytes (q.frames q.indexHead).data xs.length = some xs := by
  have hmod : (q.indexHead + 0) % N = q.indexHead := Nat.mod_eq_of_lt hq.head_lt
  have hx := hq.holds 0 xs rfl
  rw [hmod] at hx
  have hlen := hq.length_le
  simp only [List.length_cons] at hlen
  simp only [framesQueuePop, hx.ready, if_true]
  set q' : FramesQueue := { q with
    frames := Function.update q.frames q.indexHead { q.frames q.indexHead with ready := false }
    indexHead := if q.indexHead + 1 = q.numFrames then 0 else q.indexHead + 1 } with hq'
  have hhead : q'.indexHead = (q.indexHead + 1) % N := by
    simp only [hq', hq.num]
    show Cyclic.next N q.indexHead = _
    conv_lhs => rw [← hmod]
    exact Cyclic.next_mod hq.pos _
  have hself : q'.frames q.indexHead = { q.frames q.indexHead with ready := false } :=
    Function.update_self ..
  have hne : ∀ i, i ≠ q.indexHead → q'.frames i = q.frames i := fun i hi => Function.update_of_ne hi ..
  have hcell : ∀ k, 0 < k → k < N → (q.indexHead + k) % N ≠ q.indexHead := fun k h₀ hk => by
    conv_rhs => rw [← hmod]
    exact (Cyclic.cell_ne h₀ (by omega)).symm
  have hdata : ∀ i, (q'.frames i).data = (q.frames i).data ∧ (q'.frames i).size = (q.frames i).size :=
    fun i => by
      by_cases e : i = q.indexHead
      · rw [e, hself]; exact ⟨rfl, rfl⟩
      · rw [hne i e]; exact ⟨rfl, rfl⟩
  refine ⟨⟨hq.num, ?_, by omega, ?_, ?_, ?_, ?_, ?_⟩, trivial, _, rfl, hx.validSize, hx.bytes⟩
  · rw [hhead]; exact Nat.mod_lt _ hq.pos
  · rw [hhead, Nat.mod_add_mod]
    refine hq.tail.trans ?_
    rw [List.length_cons, Nat.add_assoc, Nat.add_comm 1]
  · rw [hhead]
    refine Cyclic.Holds.mono (hq.holds.drop 1) fun k hk ys hy => ?_
    change k < pending.length at hk
    rw [Nat.mod_add_mod, Nat.add_assoc] at hy ⊢
    show SlotHolds h (q'.frames _) ys
    rw [hne _ (hcell _ (by omega) (by omega))]
    exact hy
  · intro k hk hkN
    rw [hhead, Nat.mod_add_mod, Nat.add_assoc]
    by_cases e : k + 1 = N
    · rw [Nat.add_comm 1 k, e, Nat.add_mod_right, Nat.mod_eq_of_lt hq.head_lt, hself]
    · rw [hne _ (hcell _ (by omega) (by omega))]
      exact hq.idle (1 + k) (by simp; omega) (by omega)
  · intro i hi p hp
    rw [(hdata i).1] at hp
    rw [(hdata i).2]
    exact hq.owned i hi p hp
  · intro i hi j hj p hip hjp
    rw [(hdata i).1] at hip
    rw [(hdata j).1] at hjp
    exact hq.apart i hi j hj p hip hjp

theorem pop_of_empty (hq : QueueInv N h q []) : framesQueuePop q = (q, -1, none) := by
  have : (q.frames q.indexHead).ready = false := by
    rw [Bool.eq_false_iff]
    exact fun hr => hq.ready_head.mp hr rfl
  simp [framesQueuePop, this]

theorem push_of_not (hq : QueueInv N h q pending) (malloc : Option (ℕ → UInt8))
    {buf : Option (ℕ → UInt8)} {size : UInt32}
    (hs : buf = none ∨ size = 0 ∨ pending.length = N) :
    framesQueuePush malloc h q buf size = (h, q, -1) := by
  cases buf with
  | none => rfl
  | some src =>
    rw [← hq.ready_tail] at hs
    simp only [framesQueuePush]
    rw [if_pos (by simpa using hs)]

/-- A push into a queue that is not full is a reallocation and, if that succeeds, a store. -/
theorem push_eq (hq : QueueInv N h q pending) (malloc : Option (ℕ → UInt8)) (src : ℕ → UInt8)
    {size : UInt32} (h₀ : size ≠ 0) (hl : pending.length < N) :
    framesQueuePush malloc h q (some src) size =
      if (growSlot malloc h q size).2.2 then
        ((storeFrame (growSlot malloc h q size).1 (growSlot malloc h q size).2.1 src size).1,
          (storeFrame (growSlot malloc h q size).1 (growSlot malloc h q size).2.1 src size).2, 0)
      else ((growSlot malloc h q size).1, (growSlot malloc h q size).2.1, -1) := by
  have hr : ¬ q.tailFrame.ready = true := fun hr => by have := hq.ready_tail.mp hr; omega
  simp only [framesQueuePush]
  rw [if_neg (by simp [h₀, hr])]

end QueueInv

/-! ## Runs with every allocation succeeding -/

/-- Slots without a block have size `0`. -/
def NoNull (N : ℕ) (q : FramesQueue) : Prop := ∀ i < N, (q.frames i).data = none → (q.frames i).size = 0

theorem storeFrame_data (h : Heap) (q : FramesQueue) (src : ℕ → UInt8) (size : UInt32) (i : ℕ) :
    ((storeFrame h q src size).2.frames i).data = (q.frames i).data ∧
      ((storeFrame h q src size).2.frames i).size = (q.frames i).size := by
  show ((q.setTail _).frames i).data = _ ∧ ((q.setTail _).frames i).size = _
  by_cases e : i = q.indexTail
  · subst e
    rw [show ∀ f, (q.setTail f).frames q.indexTail = f from QueueInv.setTail_tailFrame q]
    exact ⟨rfl, rfl⟩
  · rw [QueueInv.setTail_frames_ne _ _ e]
    exact ⟨rfl, rfl⟩

theorem framesQueuePop_data (q : FramesQueue) (i : ℕ) :
    ((framesQueuePop q).1.frames i).data = (q.frames i).data ∧
      ((framesQueuePop q).1.frames i).size = (q.frames i).size := by
  by_cases hr : (q.frames q.indexHead).ready = true
  · simp only [framesQueuePop, if_pos hr]
    by_cases e : i = q.indexHead
    · subst e
      simp only [Function.update_self, and_self]
    · simp only [Function.update_of_ne e, and_self]
  · simp only [framesQueuePop, if_neg hr, and_self]

section Runs

variable {N : ℕ} {h : Heap} {q : FramesQueue} {pending : List (List UInt8)}

/-- A successful allocation leaves the tail slot with a block. -/
theorem NoNull.grow (hq : QueueInv N h q pending) (hn : NoNull N q) (junk : ℕ → UInt8) {size : UInt32}
    (h₀ : size ≠ 0) : NoNull N (growSlot (some junk) h q size).2.1 ∧
      (growSlot (some junk) h q size).2.2 = true ∧
      ∃ p, (growSlot (some junk) h q size).2.1.tailFrame.data = some p := by
  unfold growSlot
  by_cases hs : q.tailFrame.size.toUInt32 < size
  · simp only [if_pos hs, QueueInv.setTail_tailFrame]
    refine ⟨fun i hi hd => ?_, trivial, _, rfl⟩
    by_cases e : i = q.indexTail
    · subst e
      rw [show ∀ f, (q.setTail f).frames q.indexTail = f from QueueInv.setTail_tailFrame q] at hd
      cases hd
    · rw [QueueInv.setTail_frames_ne _ _ e] at hd ⊢
      exact hn i hi hd
  · simp only [if_neg hs]
    refine ⟨hn, trivial, Option.ne_none_iff_exists'.mp fun hd => hs ?_⟩
    rw [show q.tailFrame.size = 0 from hn _ hq.tail_lt hd]
    exact UInt32.pos_iff_ne_zero.mpr h₀

/-- **A push into a queue that is not full appends its frame.** -/
theorem QueueInv.push (hq : QueueInv N h q pending) (hn : NoNull N q) (junk src : ℕ → UInt8)
    {size : UInt32} (h₀ : size ≠ 0) (hl : pending.length < N) :
    (framesQueuePush (some junk) h q (some src) size).2.2 = 0 ∧
      QueueInv N (framesQueuePush (some junk) h q (some src) size).1
        (framesQueuePush (some junk) h q (some src) size).2.1 (pending ++ [readCells src 0 size.toNat]) ∧
      NoNull N (framesQueuePush (some junk) h q (some src) size).2.1 ∧
      (framesQueuePush (some junk) h q (some src) size).1.fault = h.fault := by
  have hr : q.tailFrame.ready = false := by
    rw [Bool.eq_false_iff]
    exact fun hr => by have := hq.ready_tail.mp hr; omega
  obtain ⟨hn', hok, p, hp⟩ := hn.grow hq junk h₀
  obtain ⟨hq', hg⟩ := hq.grow hl hr (some junk) size
  obtain ⟨b, hb, hsz⟩ := hg.room hok p hp
  rw [hq.push_eq _ _ h₀ hl, if_pos hok]
  refine ⟨rfl, hq'.store hl hp hb src hsz, fun i hi hd => ?_, ?_⟩
  · rw [(storeFrame_data ..).1] at hd
    rw [(storeFrame_data ..).2]
    exact hn' i hi hd
  · show ((growSlot _ h q size).1.memcpy (growSlot _ h q size).2.1.tailFrame.data src size.toNat).fault = _
    rw [hp, Heap.memcpy_eq hb hsz]
    exact hg.fault

/-- A call on the queue; a push comes with the outcome of its allocation. -/
inductive QueueCall
  | push (malloc : Option (ℕ → UInt8)) (buf : Option (ℕ → UInt8)) (size : UInt32)
  | pop

/-- The frame the consumer got from its last pop: what `*buf` and `*size` were set to, the bytes that
had been pushed, and the length of the heap's log then. -/
structure Borrow where
  buf : Option ℕ
  size : UInt32
  bytes : List UInt8
  mark : ℕ

/-- A queue in use: `pending` are the frames pushed and not yet popped. -/
structure QueueRun where
  heap : Heap
  queue : FramesQueue
  pending : List (List UInt8)
  borrowed : Option Borrow

/-- A new queue. -/
def queueStart (h : Heap) (junk : ℕ → Aframe) (N : ℕ) : QueueRun :=
  ⟨h, framesQueueCreate junk N, [], none⟩

/-- One call. The run stops where the C program has no defined behaviour. -/
def queueStep (r : QueueRun) (c : QueueCall) : QueueRun :=
  if r.heap.fault then r
  else match c with
  | .push malloc buf size =>
    let p := framesQueuePush malloc r.heap r.queue buf size
    { r with
      heap := p.1
      queue := p.2.1
      pending := if p.2.2 = 0 then
        r.pending ++ [buf.elim [] fun src => readCells src 0 size.toNat] else r.pending }
  | .pop =>
    let p := framesQueuePop r.queue
    { r with
      queue := p.1
      pending := if p.2.1 = 0 then r.pending.tail else r.pending
      borrowed := p.2.2.map fun o => ⟨o.1, o.2, r.pending.headD [], r.heap.log.length⟩ }

/-- The push's allocation, if it makes one, succeeds. -/
def QueueCall.MallocOk : QueueCall → Prop
  | .push malloc _ _ => malloc ≠ none
  | .pop => True

/-- **The call does what it does on a bounded queue.** A push of a frame succeeds exactly if fewer than
`N` frames are pending and a pop exactly if one is; a call that fails changes nothing; and a pop exposes
the oldest pending frame. -/
def FifoStep (N : ℕ) (r : QueueRun) : QueueCall → Prop
  | .push malloc buf size =>
    let p := framesQueuePush malloc r.heap r.queue buf size
    p.1.fault = false ∧
      (buf ≠ none → size > 0 → (p.2.2 = 0 ↔ r.pending.length < N)) ∧
      (p.2.2 ≠ 0 → p.1 = r.heap ∧ p.2.1 = r.queue)
  | .pop =>
    let p := framesQueuePop r.queue
    (p.2.1 = 0 ↔ r.pending ≠ []) ∧ (p.2.1 ≠ 0 → p.1 = r.queue) ∧
      (p.2.1 = 0 → ∃ buf size, p.2.2 = some (buf, size) ∧
        r.heap.bytes buf size.toNat = r.pending.head?)

/-- The invariant of runs in which every allocation succeeds. -/
structure FullInv (N : ℕ) (r : QueueRun) : Prop where
  queue : QueueInv N r.heap r.queue r.pending
  noNull : NoNull N r.queue
  noFault : r.heap.fault = false

theorem FullInv.start (hN : 0 < N) {h : Heap} (hf : h.fault = false) (junk : ℕ → Aframe) :
    FullInv N (queueStart h junk N) where
  queue := QueueInv.create hN h junk
  noNull i hi _ := by simp [queueStart, framesQueueCreate, hi]
  noFault := hf

theorem FullInv.push {r : QueueRun} (hr : FullInv N r) (junk : ℕ → UInt8) (buf : Option (ℕ → UInt8))
    (size : UInt32) : FifoStep N r (.push (some junk) buf size) ∧
      FullInv N (queueStep r (.push (some junk) buf size)) := by
  by_cases hs : buf = none ∨ size = 0 ∨ r.pending.length = N
  · have he := hr.queue.push_of_not (some junk) hs
    simp only [FifoStep, queueStep, hr.noFault, he]
    refine ⟨⟨trivial, fun hb h₀ => ?_, fun _ => ⟨trivial, trivial⟩⟩, ?_⟩
    · have : size ≠ 0 := UInt32.pos_iff_ne_zero.mp h₀
      have : r.pending.length = N := by tauto
      simp [this]
    · simpa using ⟨hr.queue, hr.noNull, hr.noFault⟩
  · push Not at hs
    obtain ⟨hb, h₀, hne⟩ := hs
    obtain ⟨src, rfl⟩ := Option.ne_none_iff_exists'.mp hb
    have hl : r.pending.length < N := lt_of_le_of_ne hr.queue.length_le hne
    obtain ⟨hret, hq, hn, hf⟩ := hr.queue.push hr.noNull junk src h₀ hl
    simp only [FifoStep, queueStep, hr.noFault, hret, hf]
    exact ⟨⟨trivial, fun _ _ => by simp [hl], by simp⟩, by simpa using hq, by simpa using hn,
      by simpa using hf.trans hr.noFault⟩

theorem FullInv.pop {r : QueueRun} (hr : FullInv N r) :
    FifoStep N r .pop ∧ FullInv N (queueStep r .pop) := by
  have hn : NoNull N (framesQueuePop r.queue).1 := fun i hi hd => by
    rw [(framesQueuePop_data ..).1] at hd
    rw [(framesQueuePop_data ..).2]
    exact hr.noNull i hi hd
  rcases hp : r.pending with _ | ⟨xs, rest⟩
  · have he := (hp ▸ hr.queue).pop_of_empty
    simp only [FifoStep, queueStep, hr.noFault, hp, he]
    exact ⟨⟨by simp, fun _ => trivial, by simp⟩, by simpa [hp] using hr.queue, hr.noNull, hr.noFault⟩
  · obtain ⟨hq, hret, size, hout, hsz, hb⟩ := (hp ▸ hr.queue).pop
    simp only [FifoStep, queueStep, hr.noFault, hp, hret]
    refine ⟨⟨by simp, by simp, fun _ => ⟨_, size, hout, ?_⟩⟩, by simpa using hq, hn, hr.noFault⟩
    rw [hsz, hb]
    rfl

/-- **The frame queue is a bounded first-in first-out queue of frames.** -/
theorem fifoStep_of_run (hN : 1 ≤ N) {h : Heap} (hf : h.fault = false) (junk : ℕ → Aframe)
    {calls : List QueueCall} (hcalls : ∀ c ∈ calls, c.MallocOk) :
    Runs.EachStep queueStep (FifoStep N) (queueStart h junk N) calls := by
  refine Runs.eachStep_of_inv (FullInv.start hN hf junk) fun r c hc hr => ?_
  cases c with
  | push malloc buf size =>
    obtain ⟨junk', rfl⟩ := Option.ne_none_iff_exists'.mp (hcalls _ hc)
    exact hr.push junk' buf size
  | pop => exact hr.pop

theorem fifoStep_of_run_two : Runs.EachStep queueStep (FifoStep 2)
    (queueStart Heap.empty (fun _ => ⟨true, 1, 1, none⟩) 2)
    [.push (some fun _ => 0) (some fun _ => 7) 3, .pop, .pop] :=
  fifoStep_of_run (by decide) rfl _ (by simp [QueueCall.MallocOk])

end Runs

end AudioProcess
