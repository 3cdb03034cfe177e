import AudioProcess.Lib.Mem
import Mathlib.Data.Finset.Card
import Mathlib.Data.Finset.Range
import Mathlib.Data.Int.ModEq
import Mathlib.Tactic.SplitIfs

/-!
# Items in the cells of a cycle

`Holds N P head xs`: the cells `head, head + 1, …` of a cycle of `N` cells hold the items `xs` in
order, where `P i x` says that cell `i` holds `x`. Items leave at the head (`Holds.drop`) and enter
behind the last one (`Holds.append`). `card_cells` counts the cells of an interval.

`Written N m m' t n src`: from `m` to `m'` the `n` cells of the cycle from `t` on were overwritten by
`src` and no other; one `memcpy` writes a range that does not pass the end, two write one that does.
`ranges N t n` are these one or two ranges: together they are the `n` cells from `t` on (`mem_ranges`).
-/

namespace Cyclic

variable {β : Type*} {N : ℕ}

/-- The cells from `head` on hold the items `xs`. -/
def Holds (N : ℕ) (P : ℕ → β → Prop) (head : ℕ) (xs : List β) : Prop :=
  ∀ k x, xs[k]? = some x → P ((head + k) % N) x

/-- The cell after `i`. -/
def next (N i : ℕ) : ℕ := if i + 1 = N then 0 else i + 1

theorem next_mod (hN : 0 < N) (a : ℕ) : next N (a % N) = (a + 1) % N := by
  have h := Nat.mod_lt a hN
  rw [← Nat.mod_add_mod a N 1]
  unfold next
  split_ifs with e
  · rw [e, Nat.mod_self]
  · exact (Nat.mod_eq_of_lt (by omega)).symm

/-- An offset of at most one turn wraps at most once. -/
theorem add_mod_eq {i n : ℕ} (hi : i < N) (hn : n ≤ N) :
    (i + n) % N = if i + n < N then i + n else i + n - N := by
  split_ifs with h
  · exact Nat.mod_eq_of_lt h
  · rw [Nat.mod_eq_sub_mod (by omega), Nat.mod_eq_of_lt (by omega)]

/-- Cells less than one turn apart are different. -/
theorem cell_ne {head a b : ℕ} (hab : a < b) (hb : b < a + N) : (head + a) % N ≠ (head + b) % N := by
  intro h
  have hm := (Nat.modEq_iff_dvd' (by omega : head + a ≤ head + b)).mp h
  have := Nat.le_of_dvd (by omega) hm
  omega

/-- The distance from the first cell to the cell behind `n < N` items. -/
theorem dist_eq {i n : ℕ} (hi : i < N) (hn : n < N) :
    (if i ≤ (i + n) % N then (((i + n) % N : ℕ) : ℤ) - i else (N : ℤ) + ((i + n) % N : ℕ) - i) = n := by
  rw [add_mod_eq hi hn.le]
  split_ifs <;> omega

/-- Every cell is less than one turn from the first one. -/
theorem exists_cell {head i : ℕ} (hhead : head < N) (hi : i < N) : ∃ k < N, (head + k) % N = i := by
  by_cases h : head ≤ i
  · exact ⟨i - head, by omega, by rw [Nat.add_sub_cancel' h, Nat.mod_eq_of_lt hi]⟩
  · refine ⟨N + i - head, by omega, ?_⟩
    rw [show head + (N + i - head) = i + N by omega, Nat.add_mod_right, Nat.mod_eq_of_lt hi]

/-- The number of cells with a property that holds of the first `n` cells and of no others. -/
theorem card_cells {Q : ℕ → Prop} [DecidablePred Q] {head n : ℕ} (hhead : head < N) (hn : n ≤ N)
    (hQ : ∀ k < N, Q ((head + k) % N) ↔ k < n) : ((Finset.range N).filter Q).card = n := by
  have himage : (Finset.range N).filter Q = (Finset.range n).image fun k => (head + k) % N := by
    ext i
    rw [Finset.mem_filter, Finset.mem_range, Finset.mem_image]
    constructor
    · rintro ⟨hi, hq⟩
      obtain ⟨k, hk, rfl⟩ := exists_cell hhead hi
      exact ⟨k, Finset.mem_range.mpr ((hQ k hk).mp hq), rfl⟩
    · rintro ⟨k, hk, rfl⟩
      have hk := Finset.mem_range.mp hk
      exact ⟨Nat.mod_lt _ (by omega), (hQ k (by omega)).mpr hk⟩
  have hinj : Set.InjOn (fun k => (head + k) % N) (Finset.range n) := by
    intro a ha b hb hab
    have ha := Finset.mem_range.mp ha
    have hb := Finset.mem_range.mp hb
    rcases Nat.lt_trichotomy a b with hlt | heq | hgt
    · exact absurd hab (cell_ne hlt (by omega))
    · exact heq
    · exact absurd hab.symm (cell_ne hgt (by omega))
  rw [himage, Finset.card_image_of_injOn hinj, Finset.card_range]

variable {P P' : ℕ → β → Prop} {head : ℕ} {xs : List β}

theorem Holds.nil : Holds N P head [] := fun k x h => by simp at h

theorem Holds.mono (h : Holds N P head xs)
    (hP : ∀ k < xs.length, ∀ x, P ((head + k) % N) x → P' ((head + k) % N) x) :
    Holds N P' head xs := fun k x hx =>
  hP k (List.getElem?_eq_some_iff.mp hx).1 x (h k x hx)

theorem Holds.drop (h : Holds N P head xs) (n : ℕ) : Holds N P ((head + n) % N) (xs.drop n) := by
  intro k x hx
  rw [List.getElem?_drop] at hx
  rw [Nat.mod_add_mod, Nat.add_assoc]
  exact h (n + k) x hx

theorem Holds.append {ys : List β} (h : Holds N P head xs)
    (hy : ∀ k y, ys[k]? = some y → P ((head + xs.length + k) % N) y) : Holds N P head (xs ++ ys) := by
  intro k x hx
  rw [List.getElem?_append] at hx
  split_ifs at hx with hk
  · exact h k x hx
  · have := hy (k - xs.length) x hx
    rwa [show head + xs.length + (k - xs.length) = head + k by omega] at this

/-! ## Copies into and out of the cycle -/

/-- The `n` cells from `t` on, and no others, were overwritten by `src`. -/
structure Written (N : ℕ) (m m' : ℕ → β) (t n : ℕ) (src : ℕ → β) : Prop where
  new : ∀ k < n, m' ((t + k) % N) = src k
  old : ∀ i, (∀ k < n, i ≠ (t + k) % N) → m' i = m i

open Mem

variable {m src dst : ℕ → β} {t n : ℕ}

theorem written_memcpy (h : t + n ≤ N) : Written N m (memcpy m t src 0 n) t n src where
  new k hk := by
    rw [Nat.mod_eq_of_lt (by omega), memcpy_of_mem (by omega) (by omega)]
    congr 1
    omega
  old i hi := by
    refine memcpy_of_notMem fun hc => hi (i - t) (by omega) ?_
    rw [Nat.mod_eq_of_lt (by omega)]
    omega

theorem written_memcpy_split (ht : t < N) (hn : n ≤ N) (h : N - t < n) :
    Written N m (memcpy (memcpy m t src 0 (N - t)) 0 src (N - t) (n - (N - t))) t n src where
  new k hk := by
    rw [add_mod_eq ht (by omega)]
    split_ifs with hk'
    · rw [memcpy_of_notMem (by omega), memcpy_of_mem (by omega) (by omega)]
      congr 1
      omega
    · rw [memcpy_of_mem (by omega) (by omega)]
      congr 1
      omega
  old i hi := by
    rw [memcpy_of_notMem, memcpy_of_notMem]
    · intro hc
      refine hi (i - t) (by omega) ?_
      rw [Nat.mod_eq_of_lt (by omega)]
      omega
    · intro hc
      refine hi (N - t + i) (by omega) ?_
      rw [add_mod_eq ht (by omega), if_neg (by omega)]
      omega

theorem memcpy_out (h : t + n ≤ N) {k : ℕ} (hk : k < n) :
    memcpy dst 0 m t n k = m ((t + k) % N) := by
  rw [Nat.mod_eq_of_lt (by omega), memcpy_of_mem (by omega) (by omega), Nat.sub_zero]

theorem memcpy_out_split (ht : t < N) (hn : n ≤ N) (h : N - t < n) {k : ℕ} (hk : k < n) :
    memcpy (memcpy dst 0 m t (N - t)) (N - t) m 0 (n - (N - t)) k = m ((t + k) % N) := by
  rw [add_mod_eq ht (by omega)]
  split_ifs with hk'
  · rw [memcpy_of_notMem (by omega), memcpy_of_mem (by omega) (by omega), Nat.sub_zero]
  · rw [memcpy_of_mem (by omega) (by omega)]
    congr 1
    omega

/-! ## The ranges of memory of an interval -/

/-- The cells `off, …, off + len - 1`. -/
structure Range where
  off : ℕ
  len : ℕ

instance : Membership ℕ Range := ⟨fun r i => r.off ≤ i ∧ i < r.off + r.len⟩

theorem Range.mem_iff {r : Range} {i : ℕ} : i ∈ r ↔ r.off ≤ i ∧ i < r.off + r.len := Iff.rfl

/-- The ranges that the `n` cells from `t` on take up: two if the interval passes the end. -/
def ranges (N t n : ℕ) : List Range := if n ≤ N - t then [⟨t, n⟩] else [⟨t, N - t⟩, ⟨0, n - (N - t)⟩]

theorem sum_ranges (N t n : ℕ) : ((ranges N t n).map Range.len).sum = n := by
  unfold ranges
  split_ifs
  · simp
  · simp only [List.map_cons, List.map_nil, List.sum_cons, List.sum_nil]
    omega

/-- A cell of one of the ranges is a cell of the interval. -/
theorem mem_ranges (ht : t < N) (hn : n ≤ N) {r : Range} (hr : r ∈ ranges N t n) {i : ℕ} (hi : i ∈ r) :
    ∃ k < n, (t + k) % N = i := by
  unfold ranges at hr
  split_ifs at hr with h
  · obtain rfl := List.mem_singleton.mp hr
    simp only [Range.mem_iff] at hi
    refine ⟨i - t, by omega, ?_⟩
    rw [Nat.add_sub_cancel' hi.1, Nat.mod_eq_of_lt (by omega)]
  · rcases List.mem_pair.mp hr with rfl | rfl <;> simp only [Range.mem_iff] at hi
    · refine ⟨i - t, by omega, ?_⟩
      rw [Nat.add_sub_cancel' hi.1, Nat.mod_eq_of_lt (by omega)]
    · refine ⟨N - t + i, by omega, ?_⟩
      rw [add_mod_eq ht (by omega), if_neg (by omega)]
      omega

theorem lt_of_mem_ranges (ht : t < N) (hn : n ≤ N) {r : Range} (hr : r ∈ ranges N t n) {i : ℕ} (hi : i ∈ r) :
    i < N := by
  obtain ⟨k, -, rfl⟩ := mem_ranges ht hn hr hi
  exact Nat.mod_lt _ (Nat.zero_lt_of_lt ht)

end Cyclic
