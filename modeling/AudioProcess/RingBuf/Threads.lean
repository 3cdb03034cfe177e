import AudioProcess.RingBuf.Accept

/-!
# A producer and a consumer on one ring buffer

The size query and the call that relies on it are two critical sections, and the other thread may run in
between. A run is any sequence of critical sections, so that it is any interleaving of the two threads.

* `ThreadCall`, `Shared`, `threadStep`: the buffer with what each thread last saw;
* `used_le_push`, `free_le_pop`: the other thread only ever adds to what a thread may take;
* `Promised`: what a thread saw is still there, kept by each step (`Promised.step`);
* **`promises_kept`**: whatever the other thread does, a thread can push into the free bytes that it saw,
  and pop of the used bytes that it saw.
-/

namespace AudioProcess

open CInt RingBuf

/-- A critical section of the producer. -/
inductive ProducerCall
  | getFreeSize
  | push (data : Option (ℕ → UInt8)) (size : ℤ)

/-- A critical section of the consumer. -/
inductive ConsumerCall
  | getUsedSize
  | pop (data : Option (ℕ → UInt8)) (size : ℤ)

/-- A critical section of one of the two threads. -/
inductive ThreadCall
  | producer (c : ProducerCall)
  | consumer (c : ConsumerCall)

/-- The buffer, with what `ringbuf_get_free_size` last returned to the producer, while it has pushed nothing
since, and what `ringbuf_get_used_size` last returned to the consumer, while it has popped nothing since. -/
structure Shared where
  ring : RingBuf
  seenFree : Option ℤ
  seenUsed : Option ℤ

/-- One critical section. A call that was rejected leaves what its thread saw. -/
def threadStep (s : Shared) : ThreadCall → Shared
  | .producer .getFreeSize => { s with seenFree := some (ringbufGetFreeSize s.ring) }
  | .producer (.push data size) =>
    let p := ringbufPush s.ring data size
    { s with ring := p.1, seenFree := if p.2 = 0 then s.seenFree else none }
  | .consumer .getUsedSize => { s with seenUsed := some (ringbufGetUsedSize s.ring) }
  | .consumer (.pop data size) =>
    let p := ringbufPop s.ring data size
    { s with ring := p.1, seenUsed := if p.2.2 = 0 then s.seenUsed else none }

/-- Each thread can take any part of what it saw. -/
structure Kept (s : Shared) : Prop where
  push : ∀ f, s.seenFree = some f → ∀ src (k : ℤ), 0 < k → k < f → (ringbufPush s.ring (some src) k).2 = k
  pop : ∀ u, s.seenUsed = some u → ∀ dst (k : ℤ), 0 < k → k < u → (ringbufPop s.ring (some dst) k).2.2 = k

section Calls

variable {N : ℕ} {b : RingBuf} {xs : List UInt8}

/-! ## What a call does to the sizes -/

theorem Represents.used_add_free (h : Represents N b xs) : b.ringbufUsed + b.ringbufFree = N := by
  rw [h.used_eq, h.free_eq]
  omega

/-- A push is rejected and changes nothing, or it is accepted and adds to the used bytes. -/
theorem Represents.push_cases (h : Represents N b xs) (hN : (N : ℤ) ≤ intMax) (data : Option (ℕ → UInt8))
    (size : ℤ) : ringbufPush b data size = (b, 0) ∨
      (ringbufPush b data size).2 ≠ 0 ∧ b.ringbufUsed ≤ (ringbufPush b data size).1.ringbufUsed := by
  rcases rejected_or_some data size (N - xs.length) with hs | ⟨src, n, rfl, rfl, h₀, hn⟩
  · exact .inl (h.push_of_not hN hs)
  · obtain ⟨mem, -, he⟩ := h.push_eq hN src h₀ (by omega)
    have hpush := h.push hN src h₀ (by omega)
    refine .inr ⟨by rw [he]; exact Nat.cast_ne_zero.mpr h₀.ne', ?_⟩
    rw [hpush.used_eq, h.used_eq, List.length_append]
    omega

/-- A pop is rejected and changes nothing, or it is accepted and leaves no more used bytes than there were, even
if it ends on the last byte. -/
theorem Represents.pop_cases (h : Represents N b xs) (hN : (N : ℤ) ≤ intMax) (data : Option (ℕ → UInt8))
    (size : ℤ) : (ringbufPop b data size).1 = b ∧ (ringbufPop b data size).2.2 = 0 ∨
      (ringbufPop b data size).2.2 ≠ 0 ∧ (ringbufPop b data size).1.ringbufUsed ≤ b.ringbufUsed := by
  rcases rejected_or_some data size xs.length with hs | ⟨dst, n, rfl, rfl, h₀, hn⟩
  · rw [h.pop_of_not hN hs]
    exact .inl ⟨rfl, rfl⟩
  · have hn := Int.ofNat_lt.mp hn
    obtain ⟨mem, -, he⟩ := h.pop_eq hN dst h₀ hn
    refine .inr ⟨by rw [he]; exact Nat.cast_ne_zero.mpr h₀.ne', ?_⟩
    rw [h.used_eq]
    by_cases hend : b.bufHead + n = N
    · obtain ⟨ys, hys⟩ := HoldsSome.pop hN ⟨xs, h⟩ (some dst) n
      have hused := h.used_pop_at_end hN dst h₀ hn hend
      rw [hys.getUsedSize_eq hN] at hused
      rw [hys.used_eq]
      omega
    · rw [(h.pop hN dst h₀ hn hend).used_eq, List.length_drop]
      omega

/-- **The producer only adds to what the consumer may pop.** -/
theorem used_le_push (h : HoldsSome N b) (hN : (N : ℤ) ≤ intMax) (data : Option (ℕ → UInt8)) (size : ℤ) :
    b.ringbufUsed ≤ (ringbufPush b data size).1.ringbufUsed := by
  obtain ⟨xs, hr⟩ := h
  rcases hr.push_cases hN data size with heq | ⟨-, hle⟩
  · rw [heq]
  · exact hle

/-- **The consumer only adds to what the producer may push.** -/
theorem free_le_pop (h : HoldsSome N b) (hN : (N : ℤ) ≤ intMax) (data : Option (ℕ → UInt8)) (size : ℤ) :
    b.ringbufFree ≤ (ringbufPop b data size).1.ringbufFree := by
  obtain ⟨ys, hys⟩ := h.pop hN data size
  obtain ⟨xs, hr⟩ := h
  rcases hr.pop_cases hN data size with ⟨heq, -⟩ | ⟨-, hle⟩
  · rw [heq]
  · have hbefore := hr.used_add_free
    have hafter := hys.used_add_free
    omega

/-! ## Runs -/

/-- What a thread saw is still there. -/
structure Promised (N : ℕ) (s : Shared) : Prop where
  ring : HoldsSome N s.ring
  free : ∀ f, s.seenFree = some f → f ≤ s.ring.ringbufFree
  used : ∀ u, s.seenUsed = some u → u ≤ s.ring.ringbufUsed

variable {s : Shared}

theorem Promised.kept (h : Promised N s) (hN : (N : ℤ) ≤ intMax) : Kept s where
  push f hf src k h₀ hk := by
    obtain ⟨xs, hr⟩ := h.ring
    have hle := h.free f hf
    rw [hr.free_eq] at hle
    obtain ⟨n, rfl⟩ := Int.eq_ofNat_of_zero_le h₀.le
    obtain ⟨mem, -, he⟩ := hr.push_eq hN src (n := n) (by omega) (by omega)
    rw [he]
  pop u hu dst k h₀ hk := by
    obtain ⟨xs, hr⟩ := h.ring
    have hle := h.used u hu
    rw [hr.used_eq] at hle
    obtain ⟨n, rfl⟩ := Int.eq_ofNat_of_zero_le h₀.le
    obtain ⟨mem, -, he⟩ := hr.pop_eq hN dst (n := n) (by omega) (by omega)
    rw [he]

theorem Promised.produce (h : Promised N s) (hN : (N : ℤ) ≤ intMax) (c : ProducerCall) :
    Promised N (threadStep s (.producer c)) := by
  obtain ⟨xs, hr⟩ := h.ring
  cases c with
  | getFreeSize =>
      refine ⟨h.ring, fun f hf => ?_, h.used⟩
      obtain rfl := Option.some.inj hf
      exact (hr.getFreeSize_eq hN).trans hr.free_eq.symm |>.le
  | push data size =>
      refine ⟨h.ring.push hN data size, fun f hf => ?_, fun u hu => ?_⟩
      · simp only [threadStep] at hf ⊢
        rcases hr.push_cases hN data size with heq | ⟨haccept, -⟩
        · rw [heq] at hf ⊢
          exact h.free f hf
        · rw [if_neg haccept] at hf
          cases hf
      · exact (h.used u hu).trans (used_le_push h.ring hN data size)

theorem Promised.consume (h : Promised N s) (hN : (N : ℤ) ≤ intMax) (c : ConsumerCall) :
    Promised N (threadStep s (.consumer c)) := by
  obtain ⟨xs, hr⟩ := h.ring
  cases c with
  | getUsedSize =>
      refine ⟨h.ring, h.free, fun u hu => ?_⟩
      obtain rfl := Option.some.inj hu
      exact (hr.getUsedSize_eq hN).trans hr.used_eq.symm |>.le
  | pop data size =>
      refine ⟨h.ring.pop hN data size, fun f hf => ?_, fun u hu => ?_⟩
      · exact (h.free f hf).trans (free_le_pop h.ring hN data size)
      · simp only [threadStep] at hu ⊢
        rcases hr.pop_cases hN data size with ⟨heq, hzero⟩ | ⟨haccept, -⟩
        · rw [if_pos hzero] at hu
          rw [heq]
          exact h.used u hu
        · rw [if_neg haccept] at hu
          cases hu

theorem Promised.step (h : Promised N s) (hN : (N : ℤ) ≤ intMax) (c : ThreadCall) : Promised N (threadStep s c) := by
  cases c with
  | producer c => exact h.produce hN c
  | consumer c => exact h.consume hN c

/-- **What a thread saw stays available to it**, in every state of every interleaving. -/
theorem promises_kept (hN : (N : ℤ) ≤ intMax) (junk : ℕ → UInt8) (hb : ringbufCreate junk N = some b)
    (calls : List ThreadCall) : Runs.Always threadStep Kept ⟨b, none, none⟩ calls := by
  unfold ringbufCreate at hb
  split_ifs at hb with hpos
  cases hb
  intro pre _
  have hstart : Promised N ⟨⟨N, 0, 0, junk⟩, none, none⟩ :=
    ⟨⟨[], .create hpos junk⟩, nofun, nofun⟩
  have hpre : Promised N (Runs.run threadStep ⟨⟨N, 0, 0, junk⟩, none, none⟩ pre) :=
    Runs.run_induction hstart fun s c _ hs => hs.step hN c
  exact hpre.kept hN

/-- The consumer pops up to the last byte, between the producer's query and its push. -/
theorem promises_kept_four : Runs.Always threadStep Kept ⟨⟨4, 0, 0, fun _ => 0⟩, none, none⟩
    [.producer (.push (some fun _ => 7) 3), .consumer (.pop (some fun _ => 0) 2),
      .producer (.push (some fun _ => 8) 2), .producer .getFreeSize, .consumer (.pop (some fun _ => 0) 2)] :=
  promises_kept (N := 4) (by decide) (fun _ => 0) rfl _

end Calls

end AudioProcess
