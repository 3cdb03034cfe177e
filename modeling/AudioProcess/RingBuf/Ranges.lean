import AudioProcess.Lib.Traced
import AudioProcess.RingBuf.Accept

/-!
# The bytes of the ring that a call copies

* `tracedPush`, `tracedPop`: the two calls once more, with the range of the ring that each `memcpy` writes
  or reads; without the log they are `ringbufPush` and `ringbufPop` (`val_tracedPush`, `val_tracedPop`);
* `InRange`: head and tail lie in the buffer and the sizes add up; `CopiesFit`: the copies of a call stay
  in the buffer and amount to what it returns;
* `Reached`: the states of a run, for every capacity: a buffer of more than `INT_MAX` bytes stays empty;
* **`ring_in_range`**: every state of a run is in range, and so are the copies of each of its calls.
-/

namespace AudioProcess

open CInt Mem RingBuf Cyclic

/-! ## The calls with their copies -/

/-- `memcpy(ring + off, src + s, n)` into the ring. -/
def copyIn (ring : ℕ → UInt8) (off : ℕ) (src : ℕ → UInt8) (s n : ℕ) : Traced Range (ℕ → UInt8) :=
  ⟨memcpy ring off src s n, [⟨off, n⟩]⟩

/-- `memcpy(dst + d, ring + off, n)` out of the ring. -/
def copyOut (dst : ℕ → UInt8) (d : ℕ) (ring : ℕ → UInt8) (off n : ℕ) : Traced Range (ℕ → UInt8) :=
  ⟨memcpy dst d ring off n, [⟨off, n⟩]⟩

@[simp] theorem val_copyIn (ring : ℕ → UInt8) (off : ℕ) (src : ℕ → UInt8) (s n : ℕ) :
    (copyIn ring off src s n).val = memcpy ring off src s n := rfl

@[simp] theorem val_copyOut (dst : ℕ → UInt8) (d : ℕ) (ring : ℕ → UInt8) (off n : ℕ) :
    (copyOut dst d ring off n).val = memcpy dst d ring off n := rfl

/-- `ringbuf_push`. -/
def tracedPush (b : RingBuf) (data : Option (ℕ → UInt8)) (size : ℤ) : Traced Range (RingBuf × ℤ) :=
  match data with
  | none => pure (b, 0)
  | some src =>
    if size > 0 ∧ size < toInt32 b.ringbufFree then
      let tailFree := toUInt32 (b.ringbufEnd - b.bufTail + 1)
      if tailFree ≥ toUInt32 size then do
        let ring ← copyIn b.bufStart b.bufTail src 0 size.toNat
        let tail := b.bufTail + size.toNat
        return ({ b with bufStart := ring, bufTail := if (tail : ℤ) > b.ringbufEnd then 0 else tail }, size)
      else do
        let ring ← copyIn b.bufStart b.bufTail src 0 tailFree
        let lev := toUInt32 ((toUInt32 size : ℤ) - tailFree)
        let ring ← copyIn ring 0 src tailFree lev
        return ({ b with bufStart := ring, bufTail := lev }, size)
    else pure (b, 0)

/-- `ringbuf_pop`. -/
def tracedPop (b : RingBuf) (data : Option (ℕ → UInt8)) (size : ℤ) :
    Traced Range (RingBuf × Option (ℕ → UInt8) × ℤ) :=
  match data with
  | none => pure (b, none, 0)
  | some dst =>
    if size > 0 ∧ size < toInt32 b.ringbufUsed then
      let headUsed := toUInt32 (b.ringbufEnd - b.bufHead + 1)
      if headUsed ≥ toUInt32 size then do
        let dst ← copyOut dst 0 b.bufStart b.bufHead size.toNat
        let head := b.bufHead + size.toNat
        return ({ b with bufHead := if (head : ℤ) > b.ringbufEnd then b.ringbufEnd.toNat else head },
          some dst, size)
      else do
        let dst ← copyOut dst 0 b.bufStart b.bufHead headUsed
        let lev := toUInt32 ((toUInt32 size : ℤ) - headUsed)
        let dst ← copyOut dst headUsed b.bufStart 0 lev
        return ({ b with bufHead := lev }, some dst, size)
    else pure (b, some dst, 0)

section Calls

variable (b : RingBuf) (data : Option (ℕ → UInt8)) (size : ℤ)

theorem val_tracedPush : (tracedPush b data size).val = ringbufPush b data size := by
  cases data with
  | none => rfl
  | some src =>
    simp only [tracedPush, ringbufPush, apply_ite Traced.val, Traced.val_bind, Traced.val_pure, val_copyIn]

theorem val_tracedPop : (tracedPop b data size).val = ringbufPop b data size := by
  cases data with
  | none => rfl
  | some dst =>
    simp only [tracedPop, ringbufPop, apply_ite Traced.val, Traced.val_bind, Traced.val_pure, val_copyOut]

variable {b data size}

/-- A rejected push copies nothing. -/
theorem tracedPush_of_not (h : data = none ∨ ¬ (0 < size ∧ size < toInt32 b.ringbufFree)) :
    tracedPush b data size = pure (b, 0) := by
  cases data with
  | none => rfl
  | some src => exact if_neg (by simpa using h)

/-- A rejected pop copies nothing. -/
theorem tracedPop_of_not (h : data = none ∨ ¬ (0 < size ∧ size < toInt32 b.ringbufUsed)) :
    tracedPop b data size = pure (b, data, 0) := by
  cases data with
  | none => rfl
  | some dst => exact if_neg (by simpa using h)

end Calls

/-! ## In range -/

/-- Head and tail are offsets of bytes of the buffer, and the used and free bytes make up its `N` bytes, at
least one of them free. -/
structure InRange (N : ℕ) (b : RingBuf) : Prop where
  head_lt : b.bufHead < N
  tail_lt : b.bufTail < N
  used_nonneg : 0 ≤ b.ringbufUsed
  used_le : b.ringbufUsed ≤ N - 1
  used_add_free : b.ringbufUsed + b.ringbufFree = N

/-- The copies lie in a buffer of `N` bytes, and amount to the `size` bytes asked for if the call returns
`size`; otherwise it returns `0` without a copy. -/
def Fits (N : ℕ) (size returned : ℤ) (copies : List Range) : Prop :=
  (∀ r ∈ copies, ∀ i ∈ r, i < N) ∧
    (0 < size ∧ returned = size ∧ ((copies.map Range.len).sum : ℤ) = size ∨ returned = 0 ∧ copies = [])

/-- The copies of a call stay in the buffer. -/
def CopiesFit (N : ℕ) (b : RingBuf) : RingCall → Prop
  | .push data size => Fits N size (ringbufPush b data size).2 (tracedPush b data size).log
  | .pop data size => Fits N size (ringbufPop b data size).2.2 (tracedPop b data size).log

/-- The states of a run: the buffer holds a queue, an empty one if its size is no `int`. -/
def Reached (N : ℕ) (b : RingBuf) : Prop := ∃ xs, Represents N b xs ∧ ((N : ℤ) ≤ intMax ∨ xs = [])

section Range

variable {N : ℕ} {b : RingBuf} {xs : List UInt8}

theorem Fits.rejected {size : ℤ} : Fits N size 0 [] :=
  ⟨fun r hr => by simp at hr, Or.inr ⟨rfl, rfl⟩⟩

theorem Fits.ranges {t n : ℕ} (ht : t < N) (h₀ : 0 < n) (hn : n ≤ N) : Fits N n n (ranges N t n) := by
  refine ⟨fun r hr i hi => lt_of_mem_ranges ht hn hr hi, Or.inl ⟨by omega, rfl, ?_⟩⟩
  rw [sum_ranges]

theorem Represents.inRange (h : Represents N b xs) : InRange N b where
  head_lt := h.head_lt
  tail_lt := h.tail_lt
  used_nonneg := by rw [h.used_eq]; omega
  used_le := by have := h.length_lt; rw [h.used_eq]; omega
  used_add_free := by rw [h.used_eq, h.free_eq]; omega

/-! ## The copies of one call -/

/-- An accepted push writes the cells behind the last item. -/
theorem Represents.log_tracedPush (h : Represents N b xs) (hN : (N : ℤ) ≤ intMax) (src : ℕ → UInt8) {n : ℕ}
    (h₀ : 0 < n) (hn : n < N - xs.length) : (tracedPush b (some src) n).log = ranges N b.bufTail n := by
  have ht := h.tail_lt
  have hN' : N < 2 ^ 32 := by unfold intMax at hN; omega
  simp only [tracedPush, h.toInt32_free hN, h.room_to_end hN ht, Int.toNat_natCast]
  rw [toUInt32_natCast (n := n) (by omega), if_pos (by omega)]
  unfold ranges
  by_cases hroom : n ≤ N - b.bufTail
  · rw [if_pos hroom, if_pos hroom]
    rfl
  · have hlev : toUInt32 ((n : ℤ) - (N - b.bufTail : ℕ)) = n - (N - b.bufTail) := by
      rw [toUInt32_of_range] <;> omega
    rw [if_neg hroom, if_neg hroom, hlev]
    rfl

/-- An accepted pop reads the cells of the first items. -/
theorem Represents.log_tracedPop (h : Represents N b xs) (hN : (N : ℤ) ≤ intMax) (dst : ℕ → UInt8) {n : ℕ}
    (h₀ : 0 < n) (hn : n < xs.length) : (tracedPop b (some dst) n).log = ranges N b.bufHead n := by
  have hl := h.length_lt
  have hN' : N < 2 ^ 32 := by unfold intMax at hN; omega
  simp only [tracedPop, h.toInt32_used hN, h.room_to_end hN h.head_lt, Int.toNat_natCast]
  rw [toUInt32_natCast (n := n) (by omega), if_pos (by omega)]
  unfold ranges
  by_cases hroom : n ≤ N - b.bufHead
  · rw [if_pos hroom, if_pos hroom]
    rfl
  · have hlev : toUInt32 ((n : ℤ) - (N - b.bufHead : ℕ)) = n - (N - b.bufHead) := by
      rw [toUInt32_of_range] <;> omega
    rw [if_neg hroom, if_neg hroom, hlev]
    rfl

theorem Reached.copiesFit_push (h : Reached N b) (hN : N < 2 ^ 32) (data : Option (ℕ → UInt8)) (size : ℤ) :
    CopiesFit N b (.push data size) := by
  obtain ⟨xs, hr, hsmall⟩ := h
  show Fits N size (ringbufPush b data size).2 (tracedPush b data size).log
  rcases rejected_or_some data size (toInt32 b.ringbufFree) with hs | ⟨src, n, rfl, rfl, h₀, hn⟩
  · rw [← val_tracedPush, tracedPush_of_not hs]
    exact .rejected
  · -- an empty buffer that is too large for an `int` accepts nothing
    have hN : (N : ℤ) ≤ intMax := by
      rcases hsmall with hsmall | rfl
      · exact hsmall
      · by_contra hlarge
        have := hr.toInt32_free_nonpos (not_le.mp hlarge) hN
        omega
    rw [hr.toInt32_free hN] at hn
    obtain ⟨mem, -, he⟩ := hr.push_eq hN src h₀ (by omega)
    rw [he, hr.log_tracedPush hN src h₀ (by omega)]
    exact .ranges hr.tail_lt h₀ (by omega)

theorem Reached.copiesFit_pop (h : Reached N b) (data : Option (ℕ → UInt8)) (size : ℤ) :
    CopiesFit N b (.pop data size) := by
  obtain ⟨xs, hr, hsmall⟩ := h
  show Fits N size (ringbufPop b data size).2.2 (tracedPop b data size).log
  rcases rejected_or_some data size (toInt32 b.ringbufUsed) with hs | ⟨dst, n, rfl, rfl, h₀, hn⟩
  · rw [← val_tracedPop, tracedPop_of_not hs]
    exact .rejected
  · have hN : (N : ℤ) ≤ intMax := by
      rcases hsmall with hsmall | rfl
      · exact hsmall
      · have hused : toInt32 b.ringbufUsed = 0 := by
          rw [hr.used_eq]
          rfl
        omega
    rw [hr.toInt32_used hN, Int.ofNat_lt] at hn
    obtain ⟨mem, -, he⟩ := hr.pop_eq hN dst h₀ hn
    rw [he, hr.log_tracedPop hN dst h₀ hn]
    exact .ranges hr.head_lt h₀ (hn.trans hr.length_lt).le

/-! ## Runs -/

theorem Reached.step (hN : N < 2 ^ 32) {r : RingRun} (h : Reached N r.ring) (c : RingCall) :
    Reached N (ringStep r c).ring := by
  obtain ⟨xs, hr, hsmall⟩ := h
  by_cases hle : (N : ℤ) ≤ intMax
  · obtain ⟨ys, hr'⟩ := HoldsSome.step hle ⟨xs, hr⟩ c
    exact ⟨ys, hr', Or.inl hle⟩
  · obtain rfl := hsmall.resolve_left hle
    exact ⟨[], hr.step_large (not_le.mp hle) hN c, Or.inr rfl⟩

/-- **The ring buffer stays in range.** After any calls head and tail lie in the buffer and its sizes add up,
and no call copies a byte outside the buffer or more or fewer bytes than it was asked for. -/
theorem ring_in_range (hN : N < 2 ^ 32) (junk : ℕ → UInt8) (hb : ringbufCreate junk N = some b)
    (calls : List RingCall) :
    Runs.Always ringStep (fun r => InRange N r.ring) ⟨b, [], []⟩ calls ∧
      Runs.EachStep ringStep (fun r c => CopiesFit N r.ring c) ⟨b, [], []⟩ calls := by
  unfold ringbufCreate at hb
  split_ifs at hb with hpos
  cases hb
  have hstart : Reached N ⟨N, 0, 0, junk⟩ := ⟨[], .create hpos junk, Or.inr rfl⟩
  constructor
  · intro pre hpre
    have hpre : Reached N (Runs.run ringStep ⟨⟨N, 0, 0, junk⟩, [], []⟩ pre).ring :=
      Runs.run_induction (I := fun r : RingRun => Reached N r.ring) hstart fun r c _ hr => hr.step hN c
    obtain ⟨xs, hr, -⟩ := hpre
    exact hr.inRange
  · refine Runs.eachStep_of_inv (I := fun r : RingRun => Reached N r.ring) hstart fun r c _ hr => ⟨?_, hr.step hN c⟩
    cases c with
    | push data size => exact hr.copiesFit_push hN data size
    | pop data size => exact hr.copiesFit_pop data size

theorem ring_in_range_four :
    Runs.Always ringStep (fun r => InRange 4 r.ring) ⟨⟨4, 0, 0, fun _ => 0⟩, [], []⟩
      [.push (some fun _ => 7) 3, .pop (some fun _ => 0) 2, .push (some fun _ => 8) 2] ∧
    Runs.EachStep ringStep (fun r c => CopiesFit 4 r.ring c) ⟨⟨4, 0, 0, fun _ => 0⟩, [], []⟩
      [.push (some fun _ => 7) 3, .pop (some fun _ => 0) 2, .push (some fun _ => 8) 2] :=
  ring_in_range (N := 4) (by norm_num) (fun _ => 0) rfl _

end Range

end AudioProcess
