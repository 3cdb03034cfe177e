import Mathlib.Data.List.Basic
import Mathlib.Logic.Function.Basic

/-!
# Flat memory

A block of memory is a function from offsets to cells. `memcpy` and `memset` are the C library
functions, counted in cells; `writeRow` overwrites the first cells; `readCells` lists a range.
-/

namespace Mem

variable {α : Type*}

/-- `memcpy(dst + d, src + s, n)`. -/
def memcpy (dst : ℕ → α) (d : ℕ) (src : ℕ → α) (s n : ℕ) : ℕ → α :=
  fun i => if d ≤ i ∧ i < d + n then src (s + (i - d)) else dst i

/-- `memset(dst + d, c, n)`. -/
def memset (dst : ℕ → α) (d : ℕ) (c : α) (n : ℕ) : ℕ → α :=
  fun i => if d ≤ i ∧ i < d + n then c else dst i

/-- Overwrite the first `n` cells. -/
def writeRow {n : ℕ} (v : Fin n → α) (row : ℕ → α) : ℕ → α :=
  fun j => if hj : j < n then v ⟨j, hj⟩ else row j

/-- The cells `off, …, off + n - 1`. -/
def readCells (mem : ℕ → α) (off n : ℕ) : List α := (List.range n).map fun k => mem (off + k)

theorem memcpy_of_mem {dst src : ℕ → α} {d s n i : ℕ} (h₁ : d ≤ i) (h₂ : i < d + n) :
    memcpy dst d src s n i = src (s + (i - d)) := if_pos ⟨h₁, h₂⟩

theorem memcpy_of_notMem {dst src : ℕ → α} {d s n i : ℕ} (h : ¬ (d ≤ i ∧ i < d + n)) :
    memcpy dst d src s n i = dst i := if_neg h

@[simp] theorem memcpy_zero (dst : ℕ → α) (d : ℕ) (src : ℕ → α) (s : ℕ) : memcpy dst d src s 0 = dst := by
  funext i
  exact memcpy_of_notMem (by omega)

theorem memcpy_succ (dst : ℕ → α) (d : ℕ) (src : ℕ → α) (s n : ℕ) :
    memcpy dst d src s (n + 1) = Function.update (memcpy dst d src s n) (d + n) (src (s + n)) := by
  funext i
  by_cases hi : i = d + n
  · subst hi
    rw [Function.update_self, memcpy_of_mem (by omega) (by omega), Nat.add_sub_cancel_left]
  · rw [Function.update_of_ne hi]
    unfold memcpy
    congr 1
    rw [eq_iff_iff]
    omega

/-- Two blocks of `n` cells, one behind the other. -/
theorem memcpy_halves (dst low high : ℕ → α) {n k : ℕ} (hk : k < n) :
    memcpy (memcpy dst 0 low 0 n) n high 0 n k = low k ∧
      memcpy (memcpy dst 0 low 0 n) n high 0 n (n + k) = high k := by
  constructor
  · rw [memcpy_of_notMem (by omega), memcpy_of_mem (Nat.zero_le k) (by omega), Nat.zero_add, Nat.sub_zero]
  · rw [memcpy_of_mem (Nat.le_add_right n k) (by omega), Nat.zero_add, Nat.add_sub_cancel_left]

theorem memset_of_lt {mem : ℕ → α} {v : α} {n j : ℕ} (hj : j < n) : memset mem 0 v n j = v :=
  if_pos ⟨Nat.zero_le j, by omega⟩

@[simp] theorem length_readCells (mem : ℕ → α) (off n : ℕ) : (readCells mem off n).length = n := by
  simp [readCells]

theorem getElem?_readCells {mem : ℕ → α} {off n k : ℕ} (h : k < n) :
    (readCells mem off n)[k]? = some (mem (off + k)) := by
  simp [readCells, h]

theorem readCells_congr {mem mem' : ℕ → α} {off off' n : ℕ}
    (h : ∀ k < n, mem (off + k) = mem' (off' + k)) : readCells mem off n = readCells mem' off' n := by
  unfold readCells
  refine List.map_congr_left fun k hk => h k (List.mem_range.mp hk)

theorem readCells_memcpy (dst src : ℕ → α) (n : ℕ) :
    readCells (memcpy dst 0 src 0 n) 0 n = readCells src 0 n :=
  readCells_congr fun k hk => by
    rw [memcpy_of_mem (Nat.zero_le _) (by omega), Nat.zero_add, Nat.zero_add, Nat.sub_zero]

/-- A range whose cells are the first items of a list reads as that prefix of the list. -/
theorem readCells_eq_take {mem : ℕ → α} {off n : ℕ} {xs : List α}
    (h : ∀ k < n, xs[k]? = some (mem (off + k))) : readCells mem off n = xs.take n := by
  refine List.ext_getElem? fun k => ?_
  rw [List.getElem?_take]
  split_ifs with hk
  · rw [getElem?_readCells hk, h k hk]
  · rw [List.getElem?_eq_none (by simp; omega)]

end Mem
