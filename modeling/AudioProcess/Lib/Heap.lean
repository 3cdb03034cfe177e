import AudioProcess.Lib.Mem
import Mathlib.Data.Set.Insert

/-!
# A C heap

Blocks of bytes under addresses that are never used twice. `free` of a block that is not live and
`memcpy` outside a live block set `fault`: from there on the C program has no defined behaviour. The
heap also keeps the log of its frees and writes.

* `Heap.malloc`, `Heap.free`, `Heap.memcpy` and what each does to a block (`block_malloc_self`, …);
* `Heap.Frame h h' A`: from `h` to `h'` only blocks in `A` were freed, written or allocated;
* `Heap.freeEach`: the release of a table of pointers; `fault_freeEach`, `block_freeEach`.
-/

namespace CHeap

/-- An allocated block. -/
structure Block where
  size : ℕ
  bytes : ℕ → UInt8

/-- A change to a block. -/
inductive Event
  | free (p : ℕ)
  | write (p : ℕ)
  deriving DecidableEq

/-- The block an event changes. -/
def Event.target : Event → ℕ
  | .free p => p
  | .write p => p

/-- The heap. Addresses from `fresh` on were never returned by `malloc`. -/
structure Heap where
  block : ℕ → Option Block
  fresh : ℕ
  log : List Event
  fault : Bool
  fresh_spec : ∀ p, fresh ≤ p → block p = none

namespace Heap

/-- The heap before any allocation. -/
def empty : Heap := ⟨fun _ => none, 0, [], false, fun _ _ => rfl⟩

variable (h : Heap)

/-- A successful `malloc(size)`: the address and the heap, the block holding `junk`. -/
def malloc (size : ℕ) (junk : ℕ → UInt8) : ℕ × Heap :=
  (h.fresh, { h with
    block := Function.update h.block h.fresh (some ⟨size, junk⟩)
    fresh := h.fresh + 1
    fresh_spec := fun p hp => by
      rw [Function.update_of_ne (by omega)]
      exact h.fresh_spec p (by omega) })

/-- `free(p)` of a non-null pointer. -/
def free (p : ℕ) : Heap :=
  if (h.block p).isSome then
    { h with
      block := Function.update h.block p none
      log := h.log ++ [.free p]
      fresh_spec := fun q hq => by
        by_cases e : q = p
        · rw [e, Function.update_self]
        · rw [Function.update_of_ne e]
          exact h.fresh_spec q hq }
  else { h with fault := true }

/-- Overwrite the first `n` bytes of the block `b` at `p`. -/
def writeBlock (p : ℕ) (b : Block) (hp : h.block p = some b) (src : ℕ → UInt8) (n : ℕ) : Heap :=
  { h with
    block := Function.update h.block p (some { b with bytes := Mem.memcpy b.bytes 0 src 0 n })
    log := h.log ++ [.write p]
    fresh_spec := fun q hq => by
      have hqp : q ≠ p := by
        rintro rfl
        rw [h.fresh_spec q hq] at hp
        cases hp
      rw [Function.update_of_ne hqp]
      exact h.fresh_spec q hq }

/-- `memcpy(p, src, n)` at a non-null pointer. -/
def memcpyAt (p : ℕ) (src : ℕ → UInt8) (n : ℕ) : Heap :=
  match hp : h.block p with
  | none => { h with fault := true }
  | some b => if n ≤ b.size then h.writeBlock p b hp src n else { h with fault := true }

/-- `memcpy(p, src, n)`; the pointer is `none` when null. -/
def memcpy (p : Option ℕ) (src : ℕ → UInt8) (n : ℕ) : Heap :=
  match p with
  | none => { h with fault := true }
  | some p => h.memcpyAt p src n

/-- The first `n` bytes behind a pointer, if they lie in a live block. -/
def bytes (p : Option ℕ) (n : ℕ) : Option (List UInt8) :=
  p.bind fun p => (h.block p).bind fun b =>
    if n ≤ b.size then some (Mem.readCells b.bytes 0 n) else none

variable {h}

theorem block_malloc_self (size : ℕ) (junk : ℕ → UInt8) :
    (h.malloc size junk).2.block (h.malloc size junk).1 = some ⟨size, junk⟩ := Function.update_self ..

theorem fault_free {p : ℕ} {b : Block} (hp : h.block p = some b) : (h.free p).fault = h.fault := by
  simp [free, hp]

theorem memcpy_eq {p n : ℕ} {b : Block} (hp : h.block p = some b) (hn : n ≤ b.size) (src : ℕ → UInt8) :
    h.memcpy (some p) src n = h.writeBlock p b hp src n := by
  simp only [memcpy, memcpyAt]
  split
  · simp_all
  · rename_i b' hb'
    obtain rfl : b' = b := by rw [hp] at hb'; exact (Option.some.inj hb').symm
    exact if_pos hn

theorem lt_fresh {p : ℕ} {b : Block} (hp : h.block p = some b) : p < h.fresh := by
  by_contra hge
  rw [h.fresh_spec p (by omega)] at hp
  cases hp

theorem lt_fresh_of_isSome {p : ℕ} (hp : (h.block p).isSome) : p < h.fresh := by
  obtain ⟨b, hb⟩ := Option.isSome_iff_exists.mp hp
  exact lt_fresh hb

/-- From `h` to `h'` only blocks in `A`, and new ones, were changed. -/
structure Frame (h h' : Heap) (A : Set ℕ) : Prop where
  block : ∀ p < h.fresh, p ∉ A → h'.block p = h.block p
  log : ∃ es, h'.log = h.log ++ es ∧ ∀ e ∈ es, e.target < h.fresh → e.target ∈ A
  fresh : h.fresh ≤ h'.fresh

theorem Frame.refl (h : Heap) (A : Set ℕ) : Frame h h A :=
  ⟨fun _ _ _ => rfl, ⟨[], by simp⟩, le_rfl⟩

theorem Frame.mono {h h' : Heap} {A B : Set ℕ} (H : Frame h h' A) (hAB : A ⊆ B) : Frame h h' B where
  block p hp hB := H.block p hp fun hA => hB (hAB hA)
  log := by
    obtain ⟨es, he, hes⟩ := H.log
    exact ⟨es, he, fun e hm hlt => hAB (hes e hm hlt)⟩
  fresh := H.fresh

theorem Frame.trans {h h' h'' : Heap} {A : Set ℕ} (H : Frame h h' A) {B : Set ℕ}
    (H' : Frame h' h'' B) (hB : ∀ p ∈ B, p < h.fresh → p ∈ A) : Frame h h'' A where
  block p hp hA := by
    rw [H'.block p (hp.trans_le H.fresh) fun hb => hA (hB p hb hp), H.block p hp hA]
  log := by
    obtain ⟨es, he, hes⟩ := H.log
    obtain ⟨es', he', hes'⟩ := H'.log
    refine ⟨es ++ es', by rw [he', he, List.append_assoc], fun e hm hlt => ?_⟩
    rcases List.mem_append.mp hm with hm | hm
    · exact hes e hm hlt
    · exact hB _ (hes' e hm (hlt.trans_le H.fresh)) hlt
  fresh := H.fresh.trans H'.fresh

theorem frame_malloc (size : ℕ) (junk : ℕ → UInt8) : Frame h (h.malloc size junk).2 ∅ where
  block p hp _ := Function.update_of_ne (by omega) ..
  log := ⟨[], by simp [malloc]⟩
  fresh := Nat.le_succ _

theorem frame_free (p : ℕ) : Frame h (h.free p) {p} := by
  unfold free
  split_ifs
  · exact ⟨fun q _ hq => Function.update_of_ne hq .., ⟨[.free p], rfl, by simp [Event.target]⟩, le_rfl⟩
  · exact ⟨fun _ _ _ => rfl, ⟨[], by simp⟩, le_rfl⟩

theorem frame_writeBlock {p : ℕ} {b : Block} (hp : h.block p = some b) (src : ℕ → UInt8) (n : ℕ) :
    Frame h (h.writeBlock p b hp src n) {p} :=
  ⟨fun _ _ hq => Function.update_of_ne hq .., ⟨[.write p], rfl, by simp [Event.target]⟩, le_rfl⟩

theorem frame_memcpy (p : Option ℕ) (src : ℕ → UInt8) (n : ℕ) :
    Frame h (h.memcpy p src n) {q | p = some q} := by
  have hfault : ∀ A, Frame h { h with fault := true } A := fun _ =>
    ⟨fun _ _ _ => rfl, ⟨[], by simp⟩, le_rfl⟩
  cases p with
  | none => exact hfault _
  | some p =>
    simp only [memcpy, memcpyAt]
    split
    · exact hfault _
    · rename_i b hb
      split_ifs
      · exact (frame_writeBlock hb src n).mono (by simp)
      · exact hfault _

/-! ### Releases -/

theorem block_free {p : ℕ} (hp : (h.block p).isSome) : (h.free p).block = Function.update h.block p none := by
  simp [free, hp]

theorem block_free_of_ne {p q : ℕ} (hpq : p ≠ q) : (h.free q).block p = h.block p := by
  unfold free
  split_ifs
  · exact Function.update_of_ne hpq ..
  · rfl

theorem fault_free_of_isSome {p : ℕ} (hp : (h.block p).isSome) : (h.free p).fault = h.fault := by
  simp [free, hp]

theorem isSome_memcpy (d : Option ℕ) (src : ℕ → UInt8) (n p : ℕ) :
    ((h.memcpy d src n).block p).isSome = (h.block p).isSome := by
  cases d with
  | none => rfl
  | some a =>
    simp only [memcpy, memcpyAt]
    split
    · rfl
    · rename_i b hb
      split_ifs
      · by_cases hpa : p = a
        · simp [writeBlock, hpa, hb]
        · simp [writeBlock, hpa]
      · rfl

/-- `free` of `ptr (n - 1)`, …, `ptr 0`; a null pointer is left alone. -/
def freeEach (ptr : ℕ → Option ℕ) : ℕ → Heap → Heap
  | 0, h => h
  | n + 1, h => freeEach ptr n ((ptr n).elim h h.free)

/-- Distinct live pointers, each released once. -/
structure Releasable (ptr : ℕ → Option ℕ) (n : ℕ) (h : Heap) : Prop where
  live : ∀ i < n, ∀ p, ptr i = some p → (h.block p).isSome
  apart : ∀ i < n, ∀ j < n, ∀ p, ptr i = some p → ptr j = some p → i = j

section FreeEach

variable {ptr : ℕ → Option ℕ} {n : ℕ}

theorem Releasable.last {p : ℕ} (hr : Releasable ptr (n + 1) h) (hp : ptr n = some p) : (h.block p).isSome :=
  hr.live n (Nat.lt_succ_self n) p hp

theorem Releasable.tail (hr : Releasable ptr (n + 1) h) : Releasable ptr n ((ptr n).elim h h.free) where
  live i hi p hp := by
    have hlive := hr.live i (by omega) p hp
    cases hn : ptr n with
    | none => exact hlive
    | some q =>
      have hpq : p ≠ q := by
        rintro rfl
        have := hr.apart i (by omega) n (by omega) p hp hn
        omega
      rwa [Option.elim_some, block_free_of_ne hpq]
  apart i hi j hj := hr.apart i (by omega) j (by omega)

theorem fault_freeEach (hr : Releasable ptr n h) : (freeEach ptr n h).fault = h.fault := by
  induction n generalizing h with
  | zero => rfl
  | succ n ih =>
    rw [freeEach, ih hr.tail]
    cases hn : ptr n with
    | none => rfl
    | some q => exact fault_free_of_isSome (hr.last hn)

theorem block_freeEach_of_ne {p : ℕ} (hp : ∀ i < n, ptr i ≠ some p) :
    (freeEach ptr n h).block p = h.block p := by
  induction n generalizing h with
  | zero => rfl
  | succ n ih =>
    rw [freeEach, ih fun i hi => hp i (by omega)]
    cases hn : ptr n with
    | none => rfl
    | some q =>
      have hpq : p ≠ q := fun e => hp n (by omega) (e ▸ hn)
      exact block_free_of_ne hpq

theorem block_freeEach (hr : Releasable ptr n h) {p i : ℕ} (hi : i < n) (hp : ptr i = some p) :
    (freeEach ptr n h).block p = none := by
  induction n generalizing h with
  | zero => omega
  | succ n ih =>
    rw [freeEach]
    rcases Nat.lt_succ_iff_lt_or_eq.mp hi with hlt | rfl
    · exact ih hr.tail hlt
    · have hne : ∀ j < i, ptr j ≠ some p := fun j hj hjp => by
        have := hr.apart j (by omega) i hi p hjp hp
        omega
      rw [block_freeEach_of_ne hne, hp, Option.elim_some, block_free (hr.last hp), Function.update_self]

end FreeEach

end Heap

end CHeap
