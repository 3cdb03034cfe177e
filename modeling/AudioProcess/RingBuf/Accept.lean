import AudioProcess.RingBuf.Fifo

/-!
# What the ring buffer accepts

* `exists_represents`: a buffer whose head and tail lie inside it holds some queue, so every reachable
  buffer does, whatever was delivered before (`HoldsSome.step`);
* `AcceptsFit`: a call is accepted exactly when it fits, and a rejected one changes nothing;
  `Misjudged`: the calls on which that fails;
* **`acceptsFit_iff`**: in every reachable state a call is misjudged exactly when it is a pop of all
  the used bytes, or a push that fits while more than `INT_MAX` bytes are free; and one pop empties the
  buffer only when it was empty.
-/

namespace AudioProcess

open CInt Mem RingBuf

/-- An accepted call returns its size, any other one returns `0` and leaves the buffer as it was. A push
fits while less than the free bytes are asked for, a pop while no more than the used ones are. -/
def AcceptsFit (b : RingBuf) : RingCall → Prop
  | .push data size =>
    let p := ringbufPush b data size
    if data ≠ none ∧ 0 < size ∧ size < b.ringbufFree then p.2 = size else p = (b, 0)
  | .pop data size =>
    let p := ringbufPop b data size
    if data ≠ none ∧ 0 < size ∧ size ≤ b.ringbufUsed then p.2.2 = size else p.1 = b ∧ p.2.2 = 0

/-- The call is a pop of all the used bytes, or a push that fits while more than `INT_MAX` bytes are
free. -/
def Misjudged (b : RingBuf) : RingCall → Prop
  | .push data size => data ≠ none ∧ 0 < size ∧ size < b.ringbufFree ∧ intMax < b.ringbufFree
  | .pop data size => data ≠ none ∧ 0 < size ∧ size = b.ringbufUsed

/-- One pop of the used size empties the buffer. -/
def Drains (b : RingBuf) : Prop :=
  ∀ dst, (ringbufPop b (some dst) (ringbufGetUsedSize b)).1.ringbufUsed = 0

/-- The buffer holds some queue. -/
def HoldsSome (N : ℕ) (b : RingBuf) : Prop := ∃ xs, Represents N b xs

section Accept

variable {N : ℕ} {b : RingBuf} {xs : List UInt8}

/-- A head and a tail inside the buffer bound a queue. -/
theorem exists_represents (hsize : b.bufSize = N) (hhead : b.bufHead < N) (htail : b.bufTail < N) :
    HoldsSome N b := by
  set n := if b.bufHead ≤ b.bufTail then b.bufTail - b.bufHead else N + b.bufTail - b.bufHead with hn
  refine ⟨(List.range n).map fun k => b.bufStart ((b.bufHead + k) % N), hsize, hhead, ?_, ?_, ?_⟩
  · rw [List.length_map, List.length_range]
    split_ifs at hn <;> omega
  · rw [List.length_map, List.length_range]
    split_ifs at hn with h
    · rw [hn, Nat.add_sub_cancel' h, Nat.mod_eq_of_lt htail]
    · rw [hn, show b.bufHead + (N + b.bufTail - b.bufHead) = b.bufTail + N by omega,
        Nat.add_mod_right, Nat.mod_eq_of_lt htail]
  · intro k x hx
    rw [List.getElem?_map, Option.map_eq_some_iff] at hx
    obtain ⟨j, hj, rfl⟩ := hx
    obtain ⟨-, rfl⟩ := List.getElem?_eq_some_iff.mp hj
    simp

theorem HoldsSome.push (hN : (N : ℤ) ≤ intMax) (h : HoldsSome N b) (data : Option (ℕ → UInt8)) (size : ℤ) :
    HoldsSome N (ringbufPush b data size).1 := by
  obtain ⟨xs, hr⟩ := h
  rcases rejected_or_some data size (N - xs.length) with hs | ⟨src, n, rfl, rfl, h₀, hn⟩
  · rw [hr.push_of_not hN hs]
    exact ⟨xs, hr⟩
  · exact ⟨_, hr.push hN src h₀ (by omega)⟩

/-- After a pop, even one that ends on the last byte, the head is still inside the buffer. -/
theorem HoldsSome.pop (hN : (N : ℤ) ≤ intMax) (h : HoldsSome N b) (data : Option (ℕ → UInt8)) (size : ℤ) :
    HoldsSome N (ringbufPop b data size).1 := by
  obtain ⟨xs, hr⟩ := h
  have hpos : 0 < N := Nat.zero_lt_of_lt hr.head_lt
  rcases rejected_or_some data size xs.length with hs | ⟨dst, n, rfl, rfl, h₀, hn⟩
  · rw [hr.pop_of_not hN hs]
    exact ⟨xs, hr⟩
  · obtain ⟨mem, -, he⟩ := hr.pop_eq hN dst h₀ (Int.ofNat_lt.mp hn)
    rw [he]
    refine exists_represents (N := N) hr.size ?_ hr.tail_lt
    show (if b.bufHead + n = N then N - 1 else (b.bufHead + n) % N) < N
    split_ifs
    · omega
    · exact Nat.mod_lt _ hpos

theorem HoldsSome.step (hN : (N : ℤ) ≤ intMax) {r : RingRun} (h : HoldsSome N r.ring) (c : RingCall) :
    HoldsSome N (ringStep r c).ring := by
  cases c with
  | push data size => exact h.push hN data size
  | pop data size => exact h.pop hN data size

/-! ## Buffers of more than `INT_MAX` bytes -/

/-- In an empty buffer of more than `INT_MAX` bytes the free size is a negative `int`. -/
theorem Represents.toInt32_free_nonpos (h : Represents N b []) (hN : intMax < N) (hN' : N < 2 ^ 32) :
    toInt32 b.ringbufFree ≤ 0 := by
  rw [h.free_eq]
  unfold intMax at hN
  unfold toInt32
  rw [Int.bmod_def]
  simp only [List.length_nil, Nat.cast_zero, sub_zero]
  split_ifs <;> omega

theorem Represents.push_large (h : Represents N b []) (hN : intMax < N) (hN' : N < 2 ^ 32)
    (data : Option (ℕ → UInt8)) (size : ℤ) : ringbufPush b data size = (b, 0) := by
  have hfree := h.toInt32_free_nonpos hN hN'
  cases data with
  | none => rfl
  | some src =>
    simp only [ringbufPush]
    rw [if_neg (by omega)]

/-- Nothing can be popped from an empty buffer, whatever its size. -/
theorem Represents.pop_nil (h : Represents N b []) (data : Option (ℕ → UInt8)) (size : ℤ) :
    ringbufPop b data size = (b, data, 0) := by
  have hused : toInt32 b.ringbufUsed = 0 := by
    rw [h.used_eq]
    rfl
  cases data with
  | none => rfl
  | some dst =>
    simp only [ringbufPop]
    rw [if_neg (by omega)]

theorem Represents.step_large {r : RingRun} (h : Represents N r.ring []) (hN : intMax < N)
    (hN' : N < 2 ^ 32) (c : RingCall) : Represents N (ringStep r c).ring [] := by
  cases c with
  | push data size =>
    show Represents N (ringbufPush r.ring data size).1 []
    rw [h.push_large hN hN']
    exact h
  | pop data size =>
    show Represents N (ringbufPop r.ring data size).1 []
    rw [h.pop_nil]
    exact h

/-! ## The calls of one state -/

theorem Represents.acceptsFit_push (h : Represents N b xs) (hN : (N : ℤ) ≤ intMax)
    (data : Option (ℕ → UInt8)) (size : ℤ) : AcceptsFit b (.push data size) := by
  simp only [AcceptsFit, h.free_eq]
  rcases rejected_or_some data size (N - xs.length) with hs | ⟨src, n, rfl, rfl, h₀, hn⟩
  · rw [if_neg (by tauto)]
    exact h.push_of_not hN hs
  · obtain ⟨mem, -, he⟩ := h.push_eq hN src h₀ (by omega)
    rw [he, if_pos ⟨nofun, Int.natCast_pos.mpr h₀, hn⟩]

theorem Represents.acceptsFit_pop (h : Represents N b xs) (hN : (N : ℤ) ≤ intMax)
    (data : Option (ℕ → UInt8)) (size : ℤ) :
    AcceptsFit b (.pop data size) ↔ ¬ Misjudged b (.pop data size) := by
  simp only [AcceptsFit, Misjudged, h.used_eq]
  rcases rejected_or_some data size xs.length with hs | ⟨dst, n, rfl, rfl, h₀, hn⟩
  · -- the pop is rejected: rightly, unless it asks for exactly the used bytes
    rw [h.pop_of_not hN hs]
    split_ifs with hfit
    · have hall : size = xs.length := by
        have := hs.resolve_left hfit.1
        omega
      exact iff_of_false (by simp only; omega) (not_not.mpr ⟨hfit.1, hfit.2.1, hall⟩)
    · exact iff_of_true ⟨rfl, rfl⟩ fun hm => hfit ⟨hm.1, hm.2.1, hm.2.2.le⟩
  · obtain ⟨mem, -, he⟩ := h.pop_eq hN dst h₀ (Int.ofNat_lt.mp hn)
    rw [he, if_pos ⟨nofun, Int.natCast_pos.mpr h₀, hn.le⟩]
    exact iff_of_true rfl fun hm => by omega

theorem Represents.drains_iff (h : Represents N b xs) (hN : (N : ℤ) ≤ intMax) :
    Drains b ↔ b.ringbufUsed = 0 := by
  have hrejected : ∀ dst, ringbufPop b (some dst) (ringbufGetUsedSize b) = (b, some dst, 0) := by
    intro dst
    rw [h.getUsedSize_eq hN]
    exact h.pop_of_not hN (Or.inr (by omega))
  simp only [Drains, hrejected]
  exact ⟨fun hd => hd fun _ => 0, fun hd _ => hd⟩

/-- Small enough for an `int`: only pops of all the used bytes are misjudged. -/
theorem Represents.acceptsFit_small (h : Represents N b xs) (hN : (N : ℤ) ≤ intMax) (c : RingCall) :
    AcceptsFit b c ↔ ¬ Misjudged b c := by
  cases c with
  | push data size =>
    refine iff_of_true (h.acceptsFit_push hN data size) fun hm => ?_
    have := h.free_eq
    have := hm.2.2.2
    omega
  | pop data size => exact h.acceptsFit_pop hN data size

theorem Represents.acceptsFit_large (h : Represents N b []) (hN : intMax < N) (hN' : N < 2 ^ 32)
    (c : RingCall) : AcceptsFit b c ↔ ¬ Misjudged b c := by
  have hfree : b.ringbufFree = N := by
    rw [h.free_eq]
    simp
  have hused : b.ringbufUsed = 0 := h.used_eq
  cases c with
  | push data size =>
    simp only [AcceptsFit, Misjudged, h.push_large hN hN', hfree]
    split_ifs with hfit
    · exact iff_of_false (by omega) (not_not.mpr ⟨hfit.1, hfit.2.1, hfit.2.2, hN⟩)
    · exact iff_of_true trivial fun hm => hfit ⟨hm.1, hm.2.1, hm.2.2.1⟩
  | pop data size =>
    simp only [AcceptsFit, Misjudged, h.pop_nil, hused]
    rw [if_neg (by omega)]
    exact iff_of_true ⟨trivial, trivial⟩ fun hm => by omega

theorem Represents.drains_nil (h : Represents N b []) : Drains b := by
  intro dst
  rw [h.pop_nil]
  exact h.used_eq

/-- **What the ring buffer accepts.** In every reachable state, a call is accepted exactly when it fits,
and changes nothing otherwise, unless it is misjudged; and a pop of the used size empties the buffer only
when it was empty. -/
theorem acceptsFit_iff (hN : N < 2 ^ 32) (junk : ℕ → UInt8) (hb : ringbufCreate junk N = some b)
    (calls : List RingCall) :
    (∀ c, AcceptsFit (Runs.run ringStep ⟨b, [], []⟩ calls).ring c ↔
      ¬ Misjudged (Runs.run ringStep ⟨b, [], []⟩ calls).ring c) ∧
    (Drains (Runs.run ringStep ⟨b, [], []⟩ calls).ring ↔
      (Runs.run ringStep ⟨b, [], []⟩ calls).ring.ringbufUsed = 0) := by
  unfold ringbufCreate at hb
  split_ifs at hb with hpos
  cases hb
  have hstart := Represents.create hpos junk
  by_cases hsmall : (N : ℤ) ≤ intMax
  · have hrun : HoldsSome N (Runs.run ringStep ⟨⟨N, 0, 0, junk⟩, [], []⟩ calls).ring :=
      Runs.run_induction (I := fun r : RingRun => HoldsSome N r.ring) ⟨[], hstart⟩ fun r c _ hr =>
        hr.step hsmall c
    obtain ⟨xs, hr⟩ := hrun
    exact ⟨hr.acceptsFit_small hsmall, hr.drains_iff hsmall⟩
  · have hlarge : intMax < N := not_le.mp hsmall
    have hr : Represents N (Runs.run ringStep ⟨⟨N, 0, 0, junk⟩, [], []⟩ calls).ring [] :=
      Runs.run_induction (I := fun r : RingRun => Represents N r.ring []) hstart fun r c _ hr =>
        hr.step_large hlarge hN c
    exact ⟨hr.acceptsFit_large hlarge hN, iff_of_true hr.drains_nil hr.used_eq⟩

theorem acceptsFit_iff_four :
    (∀ c, AcceptsFit (Runs.run ringStep ⟨⟨4, 0, 0, fun _ => 0⟩, [], []⟩ [.push (some fun _ => 7) 3]).ring c ↔
      ¬ Misjudged (Runs.run ringStep ⟨⟨4, 0, 0, fun _ => 0⟩, [], []⟩ [.push (some fun _ => 7) 3]).ring c) ∧
    (Drains (Runs.run ringStep ⟨⟨4, 0, 0, fun _ => 0⟩, [], []⟩ [.push (some fun _ => 7) 3]).ring ↔
      (Runs.run ringStep ⟨⟨4, 0, 0, fun _ => 0⟩, [], []⟩ [.push (some fun _ => 7) 3]).ring.ringbufUsed = 0) :=
  acceptsFit_iff (N := 4) (by norm_num) (fun _ => 0) rfl _

/-- In a buffer of two bytes, push one: the pop of that byte is rejected, and the byte stays. -/
theorem not_acceptsFit_two : ¬ ∀ N < 2 ^ 32, ∀ junk b, ringbufCreate junk N = some b → ∀ calls,
    (∀ c, AcceptsFit (Runs.run ringStep ⟨b, [], []⟩ calls).ring c) ∧
      Drains (Runs.run ringStep ⟨b, [], []⟩ calls).ring := by
  intro h
  have hdrain := (h 2 (by norm_num) (fun _ => 0) _ rfl [.push (some fun _ => 7) 1]).2 fun _ => 0
  exact absurd hdrain (by decide)

end Accept

end AudioProcess
