import AudioProcess.FramesQueue.Fifo

/-!
# How many frames the queue reports

* `ReadyInv N q n`: the ready slots are the `n` cells from the head on, the tail stands behind them;
  the heap plays no part, so pushes with any outcome of their allocation keep it (`ReadyInv.push`,
  `ReadyInv.pop`);
* `QueueTally`: a run with the numbers of its successful pushes and pops;
* **`truthful_iff`**: the reported number is that of the ready slots exactly while the queue is not
  full.
-/

namespace AudioProcess

open CHeap

/-- The ready slots are the `n` cells of the cycle from the head on. -/
structure ReadyInv (N : ℕ) (q : FramesQueue) (n : ℕ) : Prop where
  num : q.numFrames = N
  head_lt : q.indexHead < N
  le : n ≤ N
  tail : q.indexTail = (q.indexHead + n) % N
  ready : ∀ k < N, (q.frames ((q.indexHead + k) % N)).ready = true ↔ k < n

/-- The number of ready slots. -/
def readySlots (q : FramesQueue) : ℕ :=
  ((Finset.range q.numFrames).filter fun i => (q.frames i).ready = true).card

namespace ReadyInv

variable {N n : ℕ} {h : Heap} {q q' : FramesQueue}

theorem create (hN : 0 < N) (junk : ℕ → Aframe) : ReadyInv N (framesQueueCreate junk N) 0 where
  num := rfl
  head_lt := hN
  le := Nat.zero_le _
  tail := by simp [framesQueueCreate]
  ready k _ := by simp [framesQueueCreate, Nat.mod_lt _ hN]

theorem pos (hq : ReadyInv N q n) : 0 < N := Nat.zero_lt_of_lt hq.head_lt

theorem card (hq : ReadyInv N q n) : readySlots q = n := by
  rw [readySlots, hq.num]
  exact Cyclic.card_cells hq.head_lt hq.le hq.ready

/-- Only the indices and the ready flags count. -/
theorem congr (hq : ReadyInv N q n) (hnum : q'.numFrames = q.numFrames)
    (hhead : q'.indexHead = q.indexHead) (htail : q'.indexTail = q.indexTail)
    (hready : ∀ i, (q'.frames i).ready = (q.frames i).ready) : ReadyInv N q' n where
  num := hnum.trans hq.num
  head_lt := hhead ▸ hq.head_lt
  le := hq.le
  tail := by rw [htail, hhead, hq.tail]
  ready k hk := by rw [hready, hhead, hq.ready k hk]

/-- The tail slot is ready exactly when all are. -/
theorem ready_tail (hq : ReadyInv N q n) : q.tailFrame.ready = true ↔ n = N := by
  unfold FramesQueue.tailFrame
  rw [hq.tail]
  by_cases hn : n = N
  · subst hn
    refine iff_of_true ?_ rfl
    rw [Nat.add_mod_right, ← Nat.add_zero q.indexHead, hq.ready 0 hq.pos]
    exact hq.pos
  · rw [hq.ready n (lt_of_le_of_ne hq.le hn)]
    exact iff_of_false (lt_irrefl n) hn

/-- The head slot is ready exactly when any is. -/
theorem ready_head (hq : ReadyInv N q n) : (q.frames q.indexHead).ready = true ↔ 0 < n := by
  have := hq.ready 0 hq.pos
  rwa [Nat.add_zero, Nat.mod_eq_of_lt hq.head_lt] at this

/-- The tail slot becomes ready and the tail moves on. -/
theorem fill (hq : ReadyInv N q n) (hn : n < N) {f : Aframe} (hf : f.ready = true)
    (hnum : q'.numFrames = q.numFrames) (hhead : q'.indexHead = q.indexHead)
    (htail : q'.indexTail = if q.indexTail + 1 = q.numFrames then 0 else q.indexTail + 1)
    (hframes : q'.frames = Function.update q.frames q.indexTail f) : ReadyInv N q' (n + 1) where
  num := hnum.trans hq.num
  head_lt := hhead ▸ hq.head_lt
  le := hn
  tail := by
    rw [htail, hq.num, hhead, hq.tail]
    exact Cyclic.next_mod hq.pos _
  ready k hk := by
    rw [hframes, hhead]
    by_cases e : k = n
    · rw [e, ← hq.tail, Function.update_self, hf]
      exact iff_of_true rfl (Nat.lt_succ_self n)
    · have hne : (q.indexHead + k) % N ≠ q.indexTail := by
        rw [hq.tail]
        rcases Nat.lt_or_gt_of_ne e with hlt | hgt
        · exact Cyclic.cell_ne hlt (by omega)
        · exact (Cyclic.cell_ne hgt (by omega)).symm
      rw [Function.update_of_ne hne, hq.ready k hk]
      omega

/-- The head slot is no longer ready and the head moves on. -/
theorem empty (hq : ReadyInv N q (n + 1)) {f : Aframe} (hf : f.ready = false)
    (hnum : q'.numFrames = q.numFrames) (htail : q'.indexTail = q.indexTail)
    (hhead : q'.indexHead = if q.indexHead + 1 = q.numFrames then 0 else q.indexHead + 1)
    (hframes : q'.frames = Function.update q.frames q.indexHead f) : ReadyInv N q' n := by
  have hnext : q'.indexHead = (q.indexHead + 1) % N := by
    rw [hhead, hq.num, ← Cyclic.next_mod hq.pos, Nat.mod_eq_of_lt hq.head_lt]
    rfl
  have hle := hq.le
  refine ⟨hnum.trans hq.num, ?_, by omega, ?_, fun k hk => ?_⟩
  · rw [hnext]
    exact Nat.mod_lt _ hq.pos
  · rw [htail, hq.tail, hnext, Nat.mod_add_mod, Nat.add_assoc, Nat.add_comm 1 n]
  · rw [hframes, hnext, Nat.mod_add_mod, Nat.add_assoc, Nat.add_comm 1 k]
    by_cases e : k + 1 = N
    · rw [e, Nat.add_mod_right, Nat.mod_eq_of_lt hq.head_lt, Function.update_self, hf]
      exact iff_of_false Bool.false_ne_true (by omega)
    · have hne : (q.indexHead + (k + 1)) % N ≠ q.indexHead := by
        have : (q.indexHead + 0) % N ≠ (q.indexHead + (k + 1)) % N := Cyclic.cell_ne (by omega) (by omega)
        rw [Nat.add_zero, Nat.mod_eq_of_lt hq.head_lt] at this
        exact this.symm
      rw [Function.update_of_ne hne, hq.ready (k + 1) (by omega)]
      omega

/-- Reallocating the tail slot's block leaves the indices and the flags alone. -/
theorem grow (hq : ReadyInv N q n) (malloc : Option (ℕ → UInt8)) (size : UInt32) :
    ReadyInv N (growSlot malloc h q size).2.1 n := by
  have hset : ∀ f : Aframe, f.ready = q.tailFrame.ready → ReadyInv N (q.setTail f) n := by
    intro f hf
    refine hq.congr rfl rfl rfl fun i => ?_
    by_cases e : i = q.indexTail
    · subst e
      exact (congrArg Aframe.ready (QueueInv.setTail_tailFrame q f)).trans hf
    · rw [QueueInv.setTail_frames_ne q f e]
  unfold growSlot
  by_cases hs : q.tailFrame.size.toUInt32 < size
  · simp only [if_pos hs]
    cases malloc with
    | none => exact hset _ rfl
    | some junk => exact hset _ rfl
  · simp only [if_neg hs]
    exact hq

/-- **A push that succeeds makes one more slot ready.** -/
theorem push (hq : ReadyInv N q n) (malloc : Option (ℕ → UInt8)) (buf : Option (ℕ → UInt8))
    (size : UInt32) : ReadyInv N (framesQueuePush malloc h q buf size).2.1
      (if (framesQueuePush malloc h q buf size).2.2 = 0 then n + 1 else n) := by
  have hfail : ¬ (-1 : ℤ) = 0 := by decide
  cases buf with
  | none => rwa [show framesQueuePush malloc h q none size = (h, q, -1) from rfl, if_neg hfail]
  | some src =>
    have hgrow := hq.grow (h := h) malloc size
    simp only [framesQueuePush]
    by_cases hs : size = 0 ∨ q.tailFrame.ready = true
    · simp only [if_pos hs, if_neg hfail]
      exact hq
    · have hn : n < N := lt_of_le_of_ne hq.le fun he => hs (Or.inr (hq.ready_tail.mpr he))
      by_cases hok : (growSlot malloc h q size).2.2 = true
      · simp only [if_neg hs, if_pos hok, if_true]
        refine hgrow.fill hn (f := { (growSlot malloc h q size).2.1.tailFrame with
          validSize := size.toInt32, ready := true }) ?_ ?_ ?_ ?_ ?_ <;> rfl
      · simp only [if_neg hs, if_neg hok, if_neg hfail]
        exact hgrow

/-- **A pop that succeeds makes one slot less ready.** -/
theorem pop (hq : ReadyInv N q n) : ∃ n', ReadyInv N (framesQueuePop q).1 n' ∧
    n = if (framesQueuePop q).2.1 = 0 then n' + 1 else n' := by
  by_cases hr : (q.frames q.indexHead).ready = true
  · obtain ⟨n', rfl⟩ := Nat.exists_eq_succ_of_ne_zero (hq.ready_head.mp hr).ne'
    simp only [framesQueuePop, if_pos hr]
    exact ⟨n', hq.empty rfl rfl rfl rfl rfl, rfl⟩
  · simp only [framesQueuePop, if_neg hr]
    exact ⟨n, hq, rfl⟩

/-- **The reported number** is that of the ready slots, or `0` when all are. -/
theorem numValid (hq : ReadyInv N q n) :
    framesQueueGetNumValidFrames q = if n = N then 0 else (n : ℤ) := by
  unfold framesQueueGetNumValidFrames
  rw [hq.num, hq.tail]
  split_ifs with hle hn hn
  · rw [hn, Nat.add_mod_right, Nat.mod_eq_of_lt hq.head_lt, sub_self]
  · have := Cyclic.dist_eq hq.head_lt (lt_of_le_of_ne hq.le hn)
    rwa [if_pos hle] at this
  · rw [hn, Nat.add_mod_right, Nat.mod_eq_of_lt hq.head_lt] at hle
    exact absurd le_rfl hle
  · have := Cyclic.dist_eq hq.head_lt (lt_of_le_of_ne hq.le hn)
    rwa [if_neg hle] at this

end ReadyInv

/-! ## Runs -/

/-- A run with the numbers of pushes and pops that returned `0`. -/
structure QueueTally where
  run : QueueRun
  pushed : ℕ
  popped : ℕ

/-- One call, counted when it succeeds. -/
def tallyStep (t : QueueTally) (c : QueueCall) : QueueTally :=
  if t.run.heap.fault then t
  else match c with
  | .push malloc buf size =>
    { t with
      run := queueStep t.run c
      pushed := if (framesQueuePush malloc t.run.heap t.run.queue buf size).2.2 = 0 then t.pushed + 1
        else t.pushed }
  | .pop =>
    { t with
      run := queueStep t.run c
      popped := if (framesQueuePop t.run.queue).2.1 = 0 then t.popped + 1 else t.popped }

/-- The queue reports the number of its ready slots, which is that of the successful pushes less the
successful pops. -/
def Truthful (t : QueueTally) : Prop :=
  framesQueueGetNumValidFrames t.run.queue = readySlots t.run.queue ∧
    (readySlots t.run.queue : ℤ) = t.pushed - t.popped

/-- The slots that are ready are those pushed and not popped. -/
def TallyInv (N : ℕ) (t : QueueTally) : Prop :=
  ∃ n, ReadyInv N t.run.queue n ∧ t.pushed = t.popped + n

section Runs

variable {N : ℕ} {t : QueueTally}

theorem TallyInv.step (ht : TallyInv N t) (c : QueueCall) : TallyInv N (tallyStep t c) := by
  obtain ⟨n, hq, hn⟩ := ht
  unfold tallyStep
  cases hf : t.run.heap.fault with
  | true => exact ⟨n, hq, hn⟩
  | false =>
    cases c with
    | push malloc buf size =>
      have hpush := hq.push (h := t.run.heap) malloc buf size
      refine ⟨_, by simpa [queueStep, hf] using hpush, ?_⟩
      simp only [Bool.false_eq_true, if_false]
      split_ifs <;> omega
    | pop =>
      obtain ⟨n', hpop, hn'⟩ := hq.pop
      refine ⟨n', by simpa [queueStep, hf] using hpop, ?_⟩
      simp only [Bool.false_eq_true, if_false]
      split_ifs at hn' ⊢ <;> omega

theorem TallyInv.iff_not_full (ht : TallyInv N t) :
    Truthful t ↔ t.run.queue.tailFrame.ready = false := by
  obtain ⟨n, hq, hn⟩ := ht
  have hpos := hq.pos
  rw [← Bool.not_eq_true, hq.ready_tail, Truthful, hq.numValid, hq.card]
  split_ifs <;> omega

/-- **The queue reports its occupancy truthfully exactly while it is not full**: in every reachable state,
the slot the next push would fill is not ready. -/
theorem truthful_iff (hN : 1 ≤ N) (h : Heap) (junk : ℕ → Aframe) (calls : List QueueCall) :
    Truthful (Runs.run tallyStep ⟨queueStart h junk N, 0, 0⟩ calls) ↔
      (Runs.run tallyStep ⟨queueStart h junk N, 0, 0⟩ calls).run.queue.tailFrame.ready = false := by
  refine TallyInv.iff_not_full (N := N) (Runs.run_induction ?_ fun t c _ ht => ht.step c)
  exact ⟨0, ReadyInv.create hN junk, rfl⟩

theorem truthful_iff_two : Truthful (Runs.run tallyStep
      ⟨queueStart Heap.empty (fun _ => ⟨true, 1, 1, none⟩) 2, 0, 0⟩
      [.push (some fun _ => 0) (some fun _ => 7) 3]) ↔
    (Runs.run tallyStep ⟨queueStart Heap.empty (fun _ => ⟨true, 1, 1, none⟩) 2, 0, 0⟩
      [.push (some fun _ => 0) (some fun _ => 7) 3]).run.queue.tailFrame.ready = false :=
  truthful_iff (by decide) Heap.empty _ _

/-- A queue of one slot reports no frame after a push. -/
theorem not_truthful_one : ¬ ∀ N : ℕ, 1 ≤ N → ∀ h junk calls,
    Truthful (Runs.run tallyStep ⟨queueStart h junk N, 0, 0⟩ calls) := by
  intro h
  have hone := h 1 le_rfl Heap.empty (fun _ => ⟨false, 0, 0, none⟩)
    [.push (some fun _ => 0) (some fun _ => 7) 1]
  exact absurd (hone.1.symm.trans (by decide : _ = (0 : ℤ))) (by rw [hone.2]; decide)

end Runs

end AudioProcess
