import AudioProcess.Lib.Cyclic
import AudioProcess.Lib.Run
import AudioProcess.RingBuf.Model

/-!
# The ring buffer as a byte queue

* `Represents N b xs`: the buffer `b` of capacity `N` holds the byte queue `xs` in the cyclic
  interval from its head to its tail; `Represents.push`, `Represents.pop`: what an accepted call
  does to the queue;
* `RingRun`, `ringStep`: a run of calls with the bytes accepted and delivered so far;
* **`isFifo_iff`**: a run is first-in first-out, with truthful sizes, exactly when no pop ends on
  the last byte of the buffer while the data has wrapped.
-/

namespace AudioProcess

open CInt Mem RingBuf

/-- A call is rejected, or it asks for at least one byte and for fewer than `bound`. -/
theorem rejected_or_some (data : Option (ℕ → UInt8)) (size bound : ℤ) :
    (data = none ∨ ¬ (0 < size ∧ size < bound)) ∨
      ∃ mem, ∃ n : ℕ, data = some mem ∧ size = n ∧ 0 < n ∧ n < bound := by
  by_cases hs : data = none ∨ ¬ (0 < size ∧ size < bound)
  · exact .inl hs
  · push Not at hs
    obtain ⟨mem, hmem⟩ := Option.ne_none_iff_exists'.mp hs.1
    obtain ⟨n, rfl⟩ := Int.eq_ofNat_of_zero_le hs.2.1.le
    exact .inr ⟨mem, n, hmem, rfl, by omega, hs.2.2⟩

/-- The buffer `b` of capacity `N` holds the queue `xs`. -/
structure Represents (N : ℕ) (b : RingBuf) (xs : List UInt8) : Prop where
  size : b.bufSize = N
  head_lt : b.bufHead < N
  length_lt : xs.length < N
  tail : b.bufTail = (b.bufHead + xs.length) % N
  holds : Cyclic.Holds N (fun i x => b.bufStart i = x) b.bufHead xs

namespace Represents

variable {N : ℕ} {b : RingBuf} {xs : List UInt8}

theorem create (hN : 0 < N) (junk : ℕ → UInt8) : Represents N ⟨N, 0, 0, junk⟩ [] where
  size := rfl
  head_lt := hN
  length_lt := hN
  tail := by simp
  holds := Cyclic.Holds.nil

theorem tail_lt (h : Represents N b xs) : b.bufTail < N := by
  rw [h.tail]
  exact Nat.mod_lt _ (by have := h.head_lt; omega)

theorem used_eq (h : Represents N b xs) : b.ringbufUsed = xs.length := by
  have := Cyclic.dist_eq h.head_lt h.length_lt
  rwa [← h.tail, ← h.size] at this

theorem free_eq (h : Represents N b xs) : b.ringbufFree = N - xs.length := by
  have := h.used_eq
  have := h.size
  unfold ringbufUsed ringbufFree at *
  split_ifs at * <;> omega

theorem getUsedSize_eq (h : Represents N b xs) (hN : (N : ℤ) ≤ intMax) :
    ringbufGetUsedSize b = xs.length := by
  have := h.used_eq
  have := h.length_lt
  unfold ringbufUsed at *
  unfold ringbufGetUsedSize
  rw [toInt32_of_range] <;> omega

theorem getFreeSize_eq (h : Represents N b xs) (hN : (N : ℤ) ≤ intMax) :
    ringbufGetFreeSize b = N - xs.length := by
  have := h.free_eq
  have := h.length_lt
  unfold ringbufFree at *
  unfold ringbufGetFreeSize
  rw [toInt32_of_range] <;> omega

theorem toInt32_used (h : Represents N b xs) (hN : (N : ℤ) ≤ intMax) :
    toInt32 b.ringbufUsed = xs.length := h.getUsedSize_eq hN

theorem toInt32_free (h : Represents N b xs) (hN : (N : ℤ) ≤ intMax) :
    toInt32 b.ringbufFree = N - xs.length := h.getFreeSize_eq hN

theorem room_to_end (h : Represents N b xs) (hN : (N : ℤ) ≤ intMax) {i : ℕ} (hi : i < N) :
    toUInt32 (b.ringbufEnd - i + 1) = N - i := by
  have := h.size
  unfold intMax at hN
  unfold ringbufEnd
  rw [toUInt32_of_range] <;> omega

/-- Bytes enter the cells behind the last item. -/
theorem append {b' : RingBuf} {src : ℕ → UInt8} {n : ℕ} (h : Represents N b xs)
    (hn : xs.length + n < N) (hsize : b'.bufSize = b.bufSize) (hhead : b'.bufHead = b.bufHead)
    (htail : b'.bufTail = (b.bufTail + n) % N)
    (hw : Cyclic.Written N b.bufStart b'.bufStart b.bufTail n src) :
    Represents N b' (xs ++ readCells src 0 n) where
  size := hsize.trans h.size
  head_lt := hhead ▸ h.head_lt
  length_lt := by simpa using hn
  tail := by
    rw [htail, h.tail, Nat.mod_add_mod, hhead, List.length_append, length_readCells, Nat.add_assoc]
  holds := by
    rw [hhead]
    refine Cyclic.Holds.append (h.holds.mono fun k hk x hx => ?_) fun k y hy => ?_
    · refine (hw.old _ fun j hj => ?_).trans hx
      rw [h.tail, Nat.mod_add_mod, Nat.add_assoc]
      exact Cyclic.cell_ne (by omega) (by omega)
    · have hk : k < n := by simpa using (List.getElem?_eq_some_iff.mp hy).1
      rw [getElem?_readCells hk, Nat.zero_add, Option.some_inj] at hy
      rw [← Nat.mod_add_mod, ← h.tail, hw.new k hk, hy]

/-- Items leave at the head. -/
theorem drop {b' : RingBuf} {n : ℕ} (h : Represents N b xs) (hn : n ≤ xs.length)
    (hsize : b'.bufSize = b.bufSize) (hhead : b'.bufHead = (b.bufHead + n) % N)
    (htail : b'.bufTail = b.bufTail) (hmem : b'.bufStart = b.bufStart) :
    Represents N b' (xs.drop n) where
  size := hsize.trans h.size
  head_lt := by rw [hhead]; exact Nat.mod_lt _ (by have := h.head_lt; omega)
  length_lt := by have := h.length_lt; simp; omega
  tail := by
    rw [htail, h.tail, hhead, Nat.mod_add_mod, List.length_drop]
    congr 1
    omega
  holds := by rw [hhead, hmem]; exact h.holds.drop n

theorem push_of_not (h : Represents N b xs) (hN : (N : ℤ) ≤ intMax) {data : Option (ℕ → UInt8)}
    {size : ℤ} (hs : data = none ∨ ¬ (0 < size ∧ size < N - xs.length)) :
    ringbufPush b data size = (b, 0) := by
  cases data with
  | none => rfl
  | some src =>
    simp only [ringbufPush, h.toInt32_free hN]
    rw [if_neg (by simpa using hs)]

/-- What an accepted push does. -/
theorem push_eq (h : Represents N b xs) (hN : (N : ℤ) ≤ intMax) (src : ℕ → UInt8) {n : ℕ} (h₀ : 0 < n)
    (hn : n < N - xs.length) : ∃ mem, Cyclic.Written N b.bufStart mem b.bufTail n src ∧
      ringbufPush b (some src) n = ({ b with bufStart := mem, bufTail := (b.bufTail + n) % N }, (n : ℤ)) := by
  have ht := h.tail_lt
  have hs := h.size
  have hN' : N < 2 ^ 32 := by unfold intMax at hN; omega
  simp only [ringbufPush, h.toInt32_free hN, h.room_to_end hN ht, Int.toNat_natCast]
  rw [toUInt32_natCast (n := n) (by omega), if_pos (by omega), Cyclic.add_mod_eq ht (by omega)]
  by_cases hroom : N - b.bufTail ≥ n
  · refine ⟨_, Cyclic.written_memcpy (by omega), ?_⟩
    rw [if_pos hroom]
    unfold ringbufEnd
    congr 2
    split_ifs <;> omega
  · refine ⟨_, Cyclic.written_memcpy_split ht (by omega) (by omega), ?_⟩
    have hlev : toUInt32 ((n : ℤ) - (N - b.bufTail : ℕ)) = n - (N - b.bufTail) := by
      rw [toUInt32_of_range] <;> omega
    rw [if_neg hroom, hlev, if_neg (by omega)]
    congr 2
    omega

/-- **An accepted push appends its bytes.** -/
theorem push (h : Represents N b xs) (hN : (N : ℤ) ≤ intMax) (src : ℕ → UInt8) {n : ℕ} (h₀ : 0 < n)
    (hn : n < N - xs.length) :
    Represents N (ringbufPush b (some src) n).1 (xs ++ readCells src 0 n) := by
  obtain ⟨mem, hw, he⟩ := h.push_eq hN src h₀ hn
  rw [he]
  exact h.append (by omega) rfl rfl rfl hw

theorem pop_of_not (h : Represents N b xs) (hN : (N : ℤ) ≤ intMax) {data : Option (ℕ → UInt8)}
    {size : ℤ} (hs : data = none ∨ ¬ (0 < size ∧ size < xs.length)) :
    ringbufPop b data size = (b, data, 0) := by
  cases data with
  | none => rfl
  | some dst =>
    simp only [ringbufPop, h.toInt32_used hN]
    rw [if_neg (by simpa using hs)]

/-- What an accepted pop does. -/
theorem pop_eq (h : Represents N b xs) (hN : (N : ℤ) ≤ intMax) (dst : ℕ → UInt8) {n : ℕ} (h₀ : 0 < n)
    (hn : n < xs.length) : ∃ mem, readCells mem 0 n = xs.take n ∧ ringbufPop b (some dst) n =
      ({ b with bufHead := if b.bufHead + n = N then N - 1 else (b.bufHead + n) % N },
        some mem, (n : ℤ)) := by
  have hh := h.head_lt
  have hl := h.length_lt
  have hs := h.size
  have hN' : N < 2 ^ 32 := by unfold intMax at hN; omega
  have key : ∀ mem : ℕ → UInt8, (∀ k < n, mem k = b.bufStart ((b.bufHead + k) % N)) →
      readCells mem 0 n = xs.take n := fun mem hmem => by
    refine readCells_eq_take fun k hk => ?_
    have hx : xs[k]? = some xs[k] := List.getElem?_eq_getElem (by omega)
    rw [Nat.zero_add, hmem k hk, h.holds k _ hx, hx]
  simp only [ringbufPop, h.toInt32_used hN, h.room_to_end hN hh, Int.toNat_natCast]
  rw [toUInt32_natCast (n := n) (by omega), if_pos (by omega), Cyclic.add_mod_eq hh (by omega)]
  by_cases hroom : N - b.bufHead ≥ n
  · refine ⟨memcpy dst 0 b.bufStart b.bufHead n,
      key _ fun k hk => Cyclic.memcpy_out (by omega) hk, ?_⟩
    rw [if_pos hroom]
    unfold ringbufEnd
    congr 2
    split_ifs <;> omega
  · have hlev : toUInt32 ((n : ℤ) - (N - b.bufHead : ℕ)) = n - (N - b.bufHead) := by
      rw [toUInt32_of_range] <;> omega
    refine ⟨memcpy (memcpy dst 0 b.bufStart b.bufHead (N - b.bufHead)) (N - b.bufHead) b.bufStart 0
      (n - (N - b.bufHead)), key _ fun k hk => Cyclic.memcpy_out_split hh (by omega) (by omega) hk, ?_⟩
    rw [if_neg hroom, hlev, if_neg (by omega), if_neg (by omega)]
    congr 2
    omega

/-- An accepted pop that does not end on the last byte removes the bytes it delivers. -/
theorem pop (h : Represents N b xs) (hN : (N : ℤ) ≤ intMax) (dst : ℕ → UInt8) {n : ℕ} (h₀ : 0 < n)
    (hn : n < xs.length) (hend : b.bufHead + n ≠ N) :
    Represents N (ringbufPop b (some dst) n).1 (xs.drop n) := by
  obtain ⟨mem, -, he⟩ := h.pop_eq hN dst h₀ hn
  rw [he]
  exact h.drop hn.le rfl (if_neg hend) rfl rfl

/-- A pop that ends on the last byte leaves one byte too many. -/
theorem used_pop_at_end (h : Represents N b xs) (hN : (N : ℤ) ≤ intMax) (dst : ℕ → UInt8) {n : ℕ}
    (h₀ : 0 < n) (hn : n < xs.length) (hend : b.bufHead + n = N) :
    ringbufGetUsedSize (ringbufPop b (some dst) n).1 = xs.length - n + 1 := by
  obtain ⟨mem, -, he⟩ := h.pop_eq hN dst h₀ hn
  have hh := h.head_lt
  have hl := h.length_lt
  have ht := h.tail
  rw [Cyclic.add_mod_eq hh hl.le, if_neg (by omega)] at ht
  rw [he]
  simp only [ringbufGetUsedSize, if_pos hend, h.size]
  rw [toInt32_of_range] <;> split_ifs <;> omega

end Represents

/-! ## Runs -/

/-- A call on the buffer. -/
inductive RingCall
  | push (data : Option (ℕ → UInt8)) (size : ℤ)
  | pop (data : Option (ℕ → UInt8)) (size : ℤ)

/-- A buffer with the bytes its pushes accepted and its pops delivered so far. -/
structure RingRun where
  ring : RingBuf
  accepted : List UInt8
  delivered : List UInt8

/-- The first `n` bytes at a pointer. -/
def bytesAt (data : Option (ℕ → UInt8)) (n : ℤ) : List UInt8 :=
  data.elim [] fun mem => readCells mem 0 n.toNat

/-- One call; the returned value is the number of bytes accepted or delivered. -/
def ringStep (r : RingRun) : RingCall → RingRun
  | .push data size =>
    let p := ringbufPush r.ring data size
    { r with ring := p.1, accepted := r.accepted ++ bytesAt data p.2 }
  | .pop data size =>
    let p := ringbufPop r.ring data size
    { r with ring := p.1, delivered := r.delivered ++ bytesAt p.2.1 p.2.2 }

/-- The delivered bytes are the first of the accepted ones, and the two size queries are right. -/
def IsFifo (N : ℕ) (r : RingRun) : Prop :=
  r.delivered <+: r.accepted ∧
    ringbufGetUsedSize r.ring = (r.accepted.length : ℤ) - r.delivered.length ∧
    ringbufGetFreeSize r.ring = N - ((r.accepted.length : ℤ) - r.delivered.length)

/-- The call is a pop of exactly the bytes up to the end of the buffer, more of them following at its
start. -/
def PopsAtEnd (r : RingRun) : RingCall → Prop
  | .push _ _ => False
  | .pop data size => data ≠ none ∧ size = (r.ring.bufSize : ℤ) - r.ring.bufHead ∧
      0 < r.ring.bufTail ∧ r.ring.bufTail < r.ring.bufHead

/-- The queue holds what was accepted and not yet delivered. -/
def RingInv (N : ℕ) (r : RingRun) : Prop :=
  ∃ xs, Represents N r.ring xs ∧ r.accepted = r.delivered ++ xs

section Run

variable {N : ℕ} {r : RingRun}

theorem RingInv.isFifo (hN : (N : ℤ) ≤ intMax) (h : RingInv N r) : IsFifo N r := by
  obtain ⟨xs, hr, ha⟩ := h
  refine ⟨⟨xs, ha.symm⟩, ?_, ?_⟩
  · rw [hr.getUsedSize_eq hN, ha]; simp
  · rw [hr.getFreeSize_eq hN, ha]; simp

theorem bytesAt_zero (data : Option (ℕ → UInt8)) : bytesAt data 0 = [] := by
  cases data <;> rfl

theorem RingInv.push (hN : (N : ℤ) ≤ intMax) (h : RingInv N r) (data : Option (ℕ → UInt8)) (size : ℤ) :
    RingInv N (ringStep r (.push data size)) := by
  obtain ⟨xs, hr, ha⟩ := h
  rcases rejected_or_some data size (N - xs.length) with hs | ⟨src, n, rfl, rfl, h₀, hn⟩
  · refine ⟨xs, ?_, ?_⟩ <;> simp [ringStep, hr.push_of_not hN hs, hr, ha, bytesAt_zero]
  · obtain ⟨mem, -, he⟩ := hr.push_eq hN src h₀ (by omega)
    refine ⟨xs ++ readCells src 0 n, hr.push hN src h₀ (by omega), ?_⟩
    simp [ringStep, he, ha, bytesAt]

/-- A pop at the end is one that is accepted and ends on the last byte. -/
theorem popsAtEnd_iff {xs : List UInt8} (hr : Represents N r.ring xs) {dst : ℕ → UInt8} {n : ℕ} :
    PopsAtEnd r (.pop (some dst) n) ↔ n < xs.length ∧ r.ring.bufHead + n = N := by
  have hh := hr.head_lt
  have hl := hr.length_lt
  have ht := hr.tail
  rw [Cyclic.add_mod_eq hh hl.le] at ht
  simp only [PopsAtEnd, hr.size, ne_eq, reduceCtorEq, not_false_eq_true, true_and]
  split_ifs at ht <;> omega

theorem RingInv.pop (hN : (N : ℤ) ≤ intMax) (h : RingInv N r) (data : Option (ℕ → UInt8)) (size : ℤ)
    (hend : ¬ PopsAtEnd r (.pop data size)) : RingInv N (ringStep r (.pop data size)) := by
  obtain ⟨xs, hr, ha⟩ := h
  rcases rejected_or_some data size xs.length with hs | ⟨dst, n, rfl, rfl, h₀, hn⟩
  · refine ⟨xs, ?_, ?_⟩ <;> simp [ringStep, hr.pop_of_not hN hs, hr, ha, bytesAt_zero]
  · have hn : n < xs.length := Int.ofNat_lt.mp hn
    rw [popsAtEnd_iff hr] at hend
    obtain ⟨mem, hm, he⟩ := hr.pop_eq hN dst h₀ hn
    refine ⟨xs.drop n, hr.pop hN dst h₀ hn fun h => hend ⟨hn, h⟩, ?_⟩
    simp [ringStep, he, ha, bytesAt, hm]

theorem not_isFifo_of_popsAtEnd (hN : (N : ℤ) ≤ intMax) (h : RingInv N r) {c : RingCall}
    (hend : PopsAtEnd r c) : ¬ IsFifo N (ringStep r c) := by
  obtain ⟨xs, hr, ha⟩ := h
  cases c with
  | push data size => exact hend.elim
  | pop data size =>
    obtain ⟨dst, rfl⟩ := Option.ne_none_iff_exists'.mp hend.1
    have hh := hr.head_lt
    obtain ⟨n, rfl⟩ := Int.eq_ofNat_of_zero_le (a := size) (by rw [hend.2.1, hr.size]; omega)
    obtain ⟨hn, he⟩ := (popsAtEnd_iff hr).mp hend
    have hu := hr.used_pop_at_end hN dst (by omega) hn he
    obtain ⟨mem, hm, hp⟩ := hr.pop_eq hN dst (n := n) (by omega) hn
    rw [hp] at hu
    rintro ⟨-, hused, -⟩
    simp only [ringStep, hp, hu, ha, bytesAt, Option.elim, Int.toNat_natCast, List.length_append,
      length_readCells] at hused
    push_cast at hused
    omega

/-- **The ring buffer is a first-in first-out queue exactly as long as no pop ends on its last byte
while the data has wrapped.** -/
theorem isFifo_iff (hN : (N : ℤ) ≤ intMax) (junk : ℕ → UInt8) {b : RingBuf}
    (hb : ringbufCreate junk N = some b) (calls : List RingCall) :
    Runs.Always ringStep (IsFifo N) ⟨b, [], []⟩ calls ↔
      Runs.EachStep ringStep (fun r c => ¬ PopsAtEnd r c) ⟨b, [], []⟩ calls := by
  refine Runs.always_iff_eachStep (I := RingInv N) (fun r hr => hr.isFifo hN) ?_ ?_ ?_
  · intro r c hr hc
    cases c with
    | push data size => exact hr.push hN data size
    | pop data size => exact hr.pop hN data size hc
  · intro r c hr hc
    exact not_isFifo_of_popsAtEnd hN hr (not_not.mp hc)
  · unfold ringbufCreate at hb
    split_ifs at hb with h
    cases hb
    exact ⟨[], .create h junk, rfl⟩

theorem isFifo_iff_four : Runs.Always ringStep (IsFifo 4) ⟨⟨4, 0, 0, fun _ => 0⟩, [], []⟩
      [.push (some fun _ => 7) 3] ↔
    Runs.EachStep ringStep (fun r c => ¬ PopsAtEnd r c) ⟨⟨4, 0, 0, fun _ => 0⟩, [], []⟩
      [.push (some fun _ => 7) 3] :=
  isFifo_iff (by decide) (fun _ => 0) rfl _

/-- In a buffer of four bytes, push three, pop two, push two, pop two: the last pop ends on the last
byte, and the buffer then claims two unread bytes where one is left. -/
theorem not_isFifo_four : ¬ ∀ N : ℕ, 1 ≤ N → (N : ℤ) ≤ intMax → ∀ junk b, ringbufCreate junk N = some b →
    ∀ calls, Runs.Always ringStep (IsFifo N) ⟨b, [], []⟩ calls := by
  intro h
  have hlast := h 4 (by decide) (by decide) (fun _ => 0) _ rfl
    [.push (some fun k => k.toUInt8) 3, .pop (some fun _ => 0) 2, .push (some fun k => k.toUInt8) 2,
      .pop (some fun _ => 0) 2] _ List.prefix_rfl
  exact absurd hlast.2.1 (by decide)

end Run

end AudioProcess
