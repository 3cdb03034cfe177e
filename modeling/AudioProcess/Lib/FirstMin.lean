import AudioProcess.Lib.Loop
import Mathlib.Order.Basic

/-!
# The first minimum of a table

* `Before`: the order in which a table is read row by row;
* `FirstMin m n r s`: `s` is the first cell of the `m` by `n` table `r` with a least entry; there is one
  such cell (`FirstMin.unique`);
* **`forLoop_firstMin`**: nested loops that keep the first entry no later one is below find it.
-/

namespace CLoop

/-- Cell `p` is read before cell `q`. -/
def Before (p q : ℕ × ℕ) : Prop := p.1 < q.1 ∨ p.1 = q.1 ∧ p.2 < q.2

variable {α : Type*} [LinearOrder α] {m n : ℕ} {r : ℕ → ℕ → α}

/-- `s` is the first cell with a least entry. -/
structure FirstMin (m n : ℕ) (r : ℕ → ℕ → α) (s : ℕ × ℕ) : Prop where
  row_lt : s.1 < m
  col_lt : s.2 < n
  least : ∀ i < m, ∀ j < n, r s.1 s.2 ≤ r i j
  first : ∀ i < m, ∀ j < n, Before (i, j) s → r s.1 s.2 < r i j

theorem FirstMin.unique {s t : ℕ × ℕ} (hs : FirstMin m n r s) (ht : FirstMin m n r t) : s = t := by
  have hst : ¬ Before s t := fun h =>
    absurd (hs.least _ ht.row_lt _ ht.col_lt) (not_le.mpr (ht.first _ hs.row_lt _ hs.col_lt h))
  have hts : ¬ Before t s := fun h =>
    absurd (ht.least _ hs.row_lt _ hs.col_lt) (not_le.mpr (hs.first _ ht.row_lt _ ht.col_lt h))
  unfold Before at hst hts
  apply Prod.ext <;> omega

theorem FirstMin.congr {r' : ℕ → ℕ → α} {s : ℕ × ℕ} (h : FirstMin m n r s)
    (hr : ∀ i < m, ∀ j < n, r i j = r' i j) : FirstMin m n r' s where
  row_lt := h.row_lt
  col_lt := h.col_lt
  least i hi j hj := by
    rw [← hr _ h.row_lt _ h.col_lt, ← hr i hi j hj]
    exact h.least i hi j hj
  first i hi j hj hb := by
    rw [← hr _ h.row_lt _ h.col_lt, ← hr i hi j hj]
    exact h.first i hi j hj hb

/-- One turn: keep the better of the best cell so far and cell `(i, j)`. -/
def better (r : ℕ → ℕ → α) (i j : ℕ) (s : α × ℕ × ℕ) : α × ℕ × ℕ :=
  if r i j < s.1 then (r i j, i, j) else s

/-- `s` is the best cell of those read before `(i, j)`, with its entry. -/
structure BestBefore (n : ℕ) (r : ℕ → ℕ → α) (i j : ℕ) (s : α × ℕ × ℕ) : Prop where
  entry : s.1 = r s.2.1 s.2.2
  col_lt : s.2.2 < n
  seen : Before s.2 (i, j) ∨ s.2 = (0, 0)
  least : ∀ x, ∀ y < n, Before (x, y) (i, j) → s.1 ≤ r x y
  first : ∀ x, ∀ y < n, Before (x, y) (i, j) → Before (x, y) s.2 → s.1 < r x y

namespace BestBefore

variable {i j : ℕ} {s : α × ℕ × ℕ}

theorem start (hn : 0 < n) : BestBefore n r 0 0 (r 0 0, 0, 0) where
  entry := rfl
  col_lt := hn
  seen := Or.inr rfl
  least x y _ h := by simp [Before] at h
  first x y _ h := by simp [Before] at h

theorem step (h : BestBefore n r i j s) (hj : j < n) : BestBefore n r i (j + 1) (better r i j s) := by
  have hnext : ∀ x y, Before (x, y) (i, j + 1) → Before (x, y) (i, j) ∨ x = i ∧ y = j := by
    intro x y hxy
    simp only [Before] at hxy ⊢
    omega
  unfold better
  split_ifs with hlt
  · refine ⟨rfl, hj, Or.inl (Or.inr ⟨rfl, Nat.lt_succ_self j⟩), fun x y hy hxy => ?_, fun x y hy hxy hb => ?_⟩
    · rcases hnext x y hxy with hold | ⟨rfl, rfl⟩
      · exact hlt.le.trans (h.least x y hy hold)
      · exact le_rfl
    · exact hlt.trans_le (h.least x y hy hb)
  · have hle : s.1 ≤ r i j := not_lt.mp hlt
    refine ⟨h.entry, h.col_lt, ?_, fun x y hy hxy => ?_, fun x y hy hxy hb => ?_⟩
    · refine h.seen.imp_left fun hs => ?_
      simp only [Before] at hs ⊢
      omega
    · rcases hnext x y hxy with hold | ⟨rfl, rfl⟩
      · exact h.least x y hy hold
      · exact hle
    · rcases hnext x y hxy with hold | ⟨rfl, rfl⟩
      · exact h.first x y hy hold hb
      · -- the cell read now does not come before one read earlier
        exfalso
        rcases h.seen with hs | hs
        · simp only [Before] at hs hb
          omega
        · rw [hs] at hb
          simp [Before] at hb

/-- The end of a row is the start of the next one. -/
theorem nextRow (h : BestBefore n r i n s) : BestBefore n r (i + 1) 0 s := by
  have hrow : ∀ x y, y < n → Before (x, y) (i + 1, 0) → Before (x, y) (i, n) := by
    intro x y hy hxy
    simp only [Before] at hxy ⊢
    omega
  refine ⟨h.entry, h.col_lt, ?_, fun x y hy hxy => h.least x y hy (hrow x y hy hxy),
    fun x y hy hxy => h.first x y hy (hrow x y hy hxy)⟩
  refine h.seen.imp_left fun hs => ?_
  simp only [Before] at hs ⊢
  omega

end BestBefore

/-- **The loops find the first minimum.** -/
theorem forLoop_firstMin (hm : 0 < m) (hn : 0 < n) (r : ℕ → ℕ → α) : FirstMin m n r
    (forLoop 0 m (fun i s => forLoop 0 n (fun j s => better r i j s) s) (r 0 0, 0, 0)).2 := by
  have hrow : ∀ i s, BestBefore n r i 0 s →
      BestBefore n r (i + 1) 0 (forLoop 0 n (fun j s => better r i j s) s) := fun i s hs =>
    (forLoop_induction (fun j s => BestBefore n r i j s) (Nat.zero_le n) hs
      fun j s _ hj h => h.step hj).nextRow
  have hall := forLoop_induction (fun i s => BestBefore n r i 0 s) (Nat.zero_le m) (.start hn)
    fun i s _ _ hs => hrow i s hs
  generalize forLoop 0 m _ _ = s at hall
  have hbefore : ∀ i < m, ∀ j, Before (i, j) (m, 0) := fun i hi j => Or.inl hi
  refine ⟨?_, hall.col_lt, fun i hi j hj => ?_, fun i hi j hj hb => ?_⟩
  · rcases hall.seen with hs | hs
    · simp only [Before] at hs
      omega
    · rw [hs]
      exact hm
  · rw [← hall.entry]
    exact hall.least i j hj (hbefore i hi j)
  · rw [← hall.entry]
    exact hall.first i j hj (hbefore i hi j) hb

end CLoop
