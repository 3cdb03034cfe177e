import Mathlib.Algebra.BigOperators.Intervals
import Mathlib.Tactic.SplitIfs
import Mathlib.Tactic.Push

/-!
# Counted loops

`forLoop a b body s` is `for (i = a; i < b; i++)` over the state `s`.

* `forLoop_offset`, `forLoop_append`: a loop moved, and one loop from two;
* `forLoop_induction`: the invariant rule; `forLoop_rel_induction`, `forLoop_rel`: two loops in step; `forLoop_congr`;
* `forLoop_single`: a loop in which one turn alone acts; `forLoop_hit`: a property one turn establishes;
* `forLoop_prod`: two loops run as one; `forLoop_sum`: a loop that adds up;
* **`forLoop_disjoint`**, `forLoop_outside`: a loop whose turns act on disjoint parts of a memory; `forLoop_mirror`;
* `forLoop_cell`, `forLoop_set`: a loop that changes one cell of a memory per turn; `forLoop_grid`,
  `forLoop_fill`: two nested loops that set one cell of a matrix per turn; `forLoop_interleave`,
  `count_interleave`: two nested loops over interleaved places;
* `forLoopM`: a loop that can fail; `forLoopM_induction`, `forLoopM_inv`, `forLoopM_rel`;
  **`forLoopM_cells`**: a loop whose turns work on one cell each.
-/

namespace CLoop

variable {σ τ α : Type*}

/-- `n` turns of a loop from `i = a` on. -/
def forCount (a : ℕ) : ℕ → (ℕ → σ → σ) → σ → σ
  | 0, _, s => s
  | n + 1, body, s => body (a + n) (forCount a n body s)

/-- `for (i = a; i < b; i++)`. -/
def forLoop (a b : ℕ) (body : ℕ → σ → σ) (s : σ) : σ := forCount a (b - a) body s

theorem forLoop_of_le {a b : ℕ} (h : b ≤ a) (body : ℕ → σ → σ) (s : σ) : forLoop a b body s = s := by
  rw [forLoop, Nat.sub_eq_zero_of_le h]; rfl

theorem forLoop_self (a : ℕ) (body : ℕ → σ → σ) (s : σ) : forLoop a a body s = s :=
  forLoop_of_le le_rfl body s

theorem forLoop_succ {a b : ℕ} (h : a ≤ b) (body : ℕ → σ → σ) (s : σ) :
    forLoop a (b + 1) body s = body b (forLoop a b body s) := by
  unfold forLoop
  rw [show b + 1 - a = b - a + 1 by omega, forCount, show a + (b - a) = b by omega]

/-- A loop with its counter moved. -/
theorem forLoop_offset (off n : ℕ) (body : ℕ → σ → σ) (s : σ) :
    forLoop 0 n (fun i => body (off + i)) s = forLoop off (off + n) body s := by
  induction n with
  | zero => rw [forLoop_self, Nat.add_zero, forLoop_self]
  | succ n ih => rw [forLoop_succ (Nat.zero_le n), ih, ← Nat.add_assoc, forLoop_succ (Nat.le_add_right off n)]

/-- Two loops, the second going on where the first ends. -/
theorem forLoop_append {a b c : ℕ} (hab : a ≤ b) (hbc : b ≤ c) (body : ℕ → σ → σ) (s : σ) :
    forLoop b c body (forLoop a b body s) = forLoop a c body s := by
  induction c, hbc using Nat.le_induction with
  | base => rw [forLoop_self]
  | succ c hbc ih => rw [forLoop_succ hbc, ih, forLoop_succ (hab.trans hbc)]

/-- **The invariant rule.** -/
theorem forLoop_induction {a b : ℕ} {body : ℕ → σ → σ} {s : σ} (I : ℕ → σ → Prop) (hab : a ≤ b)
    (h₀ : I a s) (hstep : ∀ i s, a ≤ i → i < b → I i s → I (i + 1) (body i s)) :
    I b (forLoop a b body s) := by
  induction b, hab using Nat.le_induction with
  | base => rwa [forLoop_self]
  | succ b hab ih =>
      rw [forLoop_succ hab]
      exact hstep b _ hab (Nat.lt_succ_self b) (ih fun i s h₁ h₂ => hstep i s h₁ (by omega))

/-- The invariant rule for two loops in step. -/
theorem forLoop_rel_induction {a b : ℕ} {body : ℕ → σ → σ} {body' : ℕ → τ → τ} {s : σ} {t : τ} (R : ℕ → σ → τ → Prop)
    (hab : a ≤ b) (h₀ : R a s t)
    (hstep : ∀ i s t, a ≤ i → i < b → R i s t → R (i + 1) (body i s) (body' i t)) :
    R b (forLoop a b body s) (forLoop a b body' t) := by
  induction b, hab using Nat.le_induction with
  | base => rwa [forLoop_self, forLoop_self]
  | succ b hab ih =>
      rw [forLoop_succ hab, forLoop_succ hab]
      exact hstep b _ _ hab (Nat.lt_succ_self b) (ih fun i s t h₁ h₂ => hstep i s t h₁ (by omega))

/-- Two loops in step. -/
theorem forLoop_rel {a b : ℕ} {body : ℕ → σ → σ} {body' : ℕ → τ → τ} {s : σ} {t : τ} (R : σ → τ → Prop)
    (h₀ : R s t) (hstep : ∀ i s t, a ≤ i → i < b → R s t → R (body i s) (body' i t)) :
    R (forLoop a b body s) (forLoop a b body' t) := by
  by_cases hab : a ≤ b
  · exact forLoop_rel_induction (fun _ => R) hab h₀ hstep
  · rwa [forLoop_of_le (by omega), forLoop_of_le (by omega)]

theorem forLoop_congr {a b : ℕ} {body body' : ℕ → σ → σ} (s : σ)
    (h : ∀ i s, a ≤ i → i < b → body i s = body' i s) : forLoop a b body s = forLoop a b body' s :=
  forLoop_rel (· = ·) rfl fun i s t h₁ h₂ e => by rw [h i s h₁ h₂, e]

/-- A loop on a part of the state. -/
theorem forLoop_map {a b : ℕ} {body : ℕ → σ → σ} {body' : ℕ → τ → τ} (f : τ → σ) (t : τ)
    (h : ∀ i t, body i (f t) = f (body' i t)) : forLoop a b body (f t) = f (forLoop a b body' t) :=
  forLoop_rel (fun s t => s = f t) rfl fun i s t _ _ e => by rw [e, h]

/-- A property that every turn keeps. -/
theorem forLoop_inv {a b : ℕ} {body : ℕ → σ → σ} {s : σ} (I : σ → Prop) (h₀ : I s)
    (hstep : ∀ i s, a ≤ i → i < b → I s → I (body i s)) : I (forLoop a b body s) := by
  by_cases hab : a ≤ b
  · exact forLoop_induction (fun _ => I) hab h₀ hstep
  · rwa [forLoop_of_le (by omega)]

/-- A property that turn `k` establishes and later turns keep. -/
theorem forLoop_hit {a b : ℕ} {body : ℕ → σ → σ} {s : σ} (P : σ → Prop) {k : ℕ} (hak : a ≤ k) (hkb : k < b)
    (hit : ∀ s, P (body k s)) (keep : ∀ i s, P s → P (body i s)) : P (forLoop a b body s) := by
  induction b, Nat.succ_le_of_lt hkb using Nat.le_induction with
  | base =>
      rw [forLoop_succ hak]
      exact hit _
  | succ b hb ih =>
      rw [forLoop_succ (by omega)]
      exact keep b _ (ih (by omega))

/-- A loop that adds up. -/
theorem forLoop_sum {M : Type*} [AddCommMonoid M] (a b : ℕ) (g : ℕ → M) (s : M) :
    forLoop a b (fun i s => s + g i) s = s + ∑ i ∈ Finset.Ico a b, g i := by
  by_cases hab : a ≤ b
  · induction b, hab using Nat.le_induction with
    | base => rw [forLoop_self, Finset.Ico_self, Finset.sum_empty, add_zero]
    | succ b hab ih => rw [forLoop_succ hab, ih, Finset.sum_Ico_succ_top hab, add_assoc]
  · rw [forLoop_of_le (by omega), Finset.Ico_eq_empty (by omega), Finset.sum_empty, add_zero]

/-- **A loop in which turn `k` alone acts.** -/
theorem forLoop_single {a b : ℕ} {body : ℕ → σ → σ} (k : ℕ) (s : σ)
    (h : ∀ i s, a ≤ i → i < b → i ≠ k → body i s = s) :
    forLoop a b body s = if a ≤ k ∧ k < b then body k s else s := by
  by_cases hab : a ≤ b
  · induction b, hab using Nat.le_induction with
    | base => rw [forLoop_self, if_neg (by omega)]
    | succ b hab ih =>
        rw [forLoop_succ hab, ih fun i s h₁ h₂ => h i s h₁ (by omega)]
        by_cases hk : k = b
        · subst hk
          rw [if_neg (by omega), if_pos (by omega)]
        · rw [h b _ hab (Nat.lt_succ_self b) (Ne.symm hk)]
          exact if_congr (by omega) rfl rfl
  · rw [forLoop_of_le (by omega), if_neg (by omega)]

theorem forLoop_prod (a b : ℕ) (f : ℕ → σ → σ) (g : ℕ → τ → τ) (s : σ) (t : τ) :
    forLoop a b (fun i p => (f i p.1, g i p.2)) (s, t) = (forLoop a b f s, forLoop a b g t) := by
  apply Prod.ext
  · exact forLoop_rel (fun (p : σ × τ) s => p.1 = s) rfl fun i p s _ _ e => by rw [e]
  · exact forLoop_rel (fun (p : σ × τ) t => p.2 = t) rfl fun i p t _ _ e => by rw [e]

/-- **A loop that changes cell `c + i` on turn `i`.** -/
theorem forLoop_cell (a b c : ℕ) (f : ℕ → α → α) (m : ℕ → α) :
    forLoop a b (fun i m => Function.update m (c + i) (f i (m (c + i)))) m =
      fun x => if c + a ≤ x ∧ x < c + b then f (x - c) (m x) else m x := by
  by_cases hab : a ≤ b
  · induction b, hab using Nat.le_induction with
    | base =>
        rw [forLoop_self]
        funext x
        rw [if_neg (by omega)]
    | succ b hab ih =>
        rw [forLoop_succ hab, ih]
        funext x
        by_cases hx : x = c + b
        · subst hx
          have hout : ¬ (c + a ≤ c + b ∧ c + b < c + b) := by omega
          have hin : c + a ≤ c + b ∧ c + b < c + (b + 1) := by omega
          simp only [Function.update_self, if_neg hout, if_pos hin, Nat.add_sub_cancel_left]
        · rw [Function.update_of_ne hx]
          exact if_congr (by omega) rfl rfl
  · rw [forLoop_of_le (by omega)]
    funext x
    rw [if_neg (by omega)]

/-- **A loop whose turns act on disjoint parts of a memory.** The cells of turn `i` end as that turn leaves them, from
what they held before the loop. -/
theorem forLoop_disjoint {a b : ℕ} {body : ℕ → (ℕ → α) → ℕ → α} (part : ℕ → ℕ → Prop) (m : ℕ → α)
    (hdisj : ∀ i j x, a ≤ i → i < b → a ≤ j → j < b → part i x → part j x → i = j)
    (hframe : ∀ i m x, a ≤ i → i < b → ¬ part i x → body i m x = m x) {i : ℕ} (ha : a ≤ i) (hb : i < b) :
    ∃ m', (∀ x, part i x → m' x = m x) ∧ ∀ x, part i x → forLoop a b body m x = body i m' x := by
  refine ⟨forLoop a i body m, fun x hx => ?_, fun x hx => ?_⟩
  · exact forLoop_inv (fun m' => m' x = m x) rfl fun j m' hj hji e =>
      (hframe j m' x hj (hji.trans hb) fun hpart =>
        hji.ne' (hdisj i j x ha hb hj (hji.trans hb) hx hpart)).trans e
  · rw [← forLoop_append (show a ≤ i + 1 by omega) (show i + 1 ≤ b by omega), forLoop_succ ha]
    exact forLoop_inv (fun m' => m' x = body i (forLoop a i body m) x) rfl fun j m' hj hjb e =>
      (hframe j m' x (by omega) hjb fun hpart =>
        (Nat.lt_of_succ_le hj).ne (hdisj i j x ha hb (by omega) hjb hx hpart)).trans e

theorem forLoop_outside {a b : ℕ} {body : ℕ → (ℕ → α) → ℕ → α} (part : ℕ → ℕ → Prop) (m : ℕ → α) {x : ℕ}
    (hframe : ∀ i m, a ≤ i → i < b → ¬ part i x → body i m x = m x) (hx : ∀ i, a ≤ i → i < b → ¬ part i x) :
    forLoop a b body m x = m x :=
  forLoop_inv (fun m' => m' x = m x) rfl fun i m' h₁ h₂ e => (hframe i m' h₁ h₂ (hx i h₁ h₂)).trans e

/-- A loop that fills the cells between `0` and `n` from both ends. -/
theorem forLoop_mirror (n : ℕ) (g h m : ℕ → α) :
    forLoop 1 (n / 2 + 1) (fun k m => Function.update (Function.update m k (g k)) (n - k) (h k)) m =
      fun x => if 0 < x ∧ x < n then if 2 * x < n then g x else h (n - x) else m x := by
  let part (k x : ℕ) : Prop := x = k ∨ x = n - k
  have hframe : ∀ k (m : ℕ → α) x, 1 ≤ k → k < n / 2 + 1 → ¬ part k x →
      Function.update (Function.update m k (g k)) (n - k) (h k) x = m x := fun k m x _ _ hx => by
    rw [Function.update_of_ne (fun e => hx (.inr e)), Function.update_of_ne (fun e => hx (.inl e))]
  have hdisj : ∀ i j x, 1 ≤ i → i < n / 2 + 1 → 1 ≤ j → j < n / 2 + 1 → part i x → part j x → i = j := by
    intro i j x _ _ _ _ hi hj
    simp only [part] at hi hj
    omega
  funext x
  split_ifs with hx hlow
  · obtain ⟨m', -, hend⟩ := forLoop_disjoint part m hdisj hframe (show 1 ≤ x by omega) (show x < n / 2 + 1 by omega)
    rw [hend x (.inl rfl), Function.update_of_ne (by omega), Function.update_self]
  · obtain ⟨m', -, hend⟩ := forLoop_disjoint part m hdisj hframe (show 1 ≤ n - x by omega)
      (show n - x < n / 2 + 1 by omega)
    have hcell : n - (n - x) = x := by omega
    rw [hend x (.inr hcell.symm), hcell, Function.update_self]
  · refine forLoop_outside part m (fun k m => hframe k m x) fun k _ _ hk => ?_
    simp only [part] at hk
    omega

/-- A loop that fills the first `n` cells. -/
theorem forLoop_set (n : ℕ) (g m : ℕ → α) :
    forLoop 0 n (fun i m => Function.update m i (g i)) m = fun x => if x < n then g x else m x := by
  have h := forLoop_cell 0 n 0 (fun i _ => g i) m
  simpa only [Nat.zero_add, Nat.sub_zero, Nat.zero_le, true_and] using h

/-- A loop that fills the first `n` cells of two memories. -/
theorem forLoop_set_pair {β : Type*} (n : ℕ) (g : ℕ → α) (h : ℕ → β) (m : ℕ → α) (m' : ℕ → β) :
    forLoop 0 n (fun i p => (Function.update p.1 i (g i), Function.update p.2 i (h i))) (m, m') =
      (fun x => if x < n then g x else m x, fun x => if x < n then h x else m' x) := by
  rw [forLoop_prod 0 n (fun i m => Function.update m i (g i)) (fun i m => Function.update m i (h i)), forLoop_set,
    forLoop_set]

/-- Set one cell of a matrix. -/
def set2 (m : ℕ → ℕ → α) (r c : ℕ) (v : α) : ℕ → ℕ → α :=
  Function.update m r (Function.update (m r) c v)

theorem set2_apply (m : ℕ → ℕ → α) (r c : ℕ) (v : α) (r' c' : ℕ) :
    set2 m r c v r' c' = if r' = r ∧ c' = c then v else m r' c' := by
  unfold set2
  by_cases hr : r' = r
  · subst hr
    rw [Function.update_self]
    by_cases hc : c' = c
    · subst hc; simp
    · rw [Function.update_of_ne hc]; simp [hc]
  · rw [Function.update_of_ne hr]; simp [hr]

/-- **Nested loops that set cell `(ro + r, co + c)` on turn `(r, c)`**, from that cell's old value. -/
theorem forLoop_grid (r₀ r₁ c₀ c₁ ro co : ℕ) (f : ℕ → ℕ → α → α) (m : ℕ → ℕ → α) :
    forLoop r₀ r₁ (fun r m => forLoop c₀ c₁ (fun c m =>
        set2 m (ro + r) (co + c) (f r c (m (ro + r) (co + c)))) m) m =
      fun x y => if (ro + r₀ ≤ x ∧ x < ro + r₁) ∧ co + c₀ ≤ y ∧ y < co + c₁ then
        f (x - ro) (y - co) (m x y) else m x y := by
  have inner : ∀ r (m : ℕ → ℕ → α), forLoop c₀ c₁ (fun c m =>
      set2 m (ro + r) (co + c) (f r c (m (ro + r) (co + c)))) m = Function.update m (ro + r)
        fun y => if co + c₀ ≤ y ∧ y < co + c₁ then f r (y - co) (m (ro + r) y) else m (ro + r) y := by
    intro r m
    rw [← forLoop_cell c₀ c₁ co (f r) (m (ro + r))]
    refine (forLoop_rel (fun (m' : ℕ → ℕ → α) (v : ℕ → α) => m' = Function.update m (ro + r) v)
      (Function.update_eq_self ..).symm fun i m' v _ _ e => ?_)
    subst e
    simp only [set2, Function.update_self, Function.update_idem]
  simp only [inner]
  refine (forLoop_cell r₀ r₁ ro (fun r v y =>
    if co + c₀ ≤ y ∧ y < co + c₁ then f r (y - co) (v y) else v y) m).trans ?_
  funext x y
  by_cases hx : ro + r₀ ≤ x ∧ x < ro + r₁
  · by_cases hy : co + c₀ ≤ y ∧ y < co + c₁ <;> simp [hx, hy]
  · simp [hx]

/-- Nested loops that fill a rectangle of a matrix. -/
theorem forLoop_fill (r₀ r₁ c₀ c₁ : ℕ) (z m : ℕ → ℕ → α) :
    forLoop r₀ r₁ (fun r m => forLoop c₀ c₁ (fun c m => set2 m r c (z r c)) m) m =
      fun x y => if (r₀ ≤ x ∧ x < r₁) ∧ c₀ ≤ y ∧ y < c₁ then z x y else m x y := by
  have h := forLoop_grid r₀ r₁ c₀ c₁ 0 0 (fun r c _ => z r c) m
  simpa only [zero_add, Nat.sub_zero] using h

/-- **Nested loops over the interleaved places `i + n * j`**, of which the turn at `x` alone acts. -/
theorem forLoop_interleave_single (n len x : ℕ) (f : ℕ → ℕ → σ → σ) (s : σ)
    (h : ∀ i j s, x ≠ i + n * j → f i j s = s) :
    forLoop 0 n (fun i s => forLoop 0 len (f i) s) s = if x < n * len then f (x % n) (x / n) s else s := by
  have hmod : ∀ {i j}, i < n → x = i + n * j → i = x % n ∧ j = x / n := by
    rintro i j hi rfl
    rw [Nat.add_mul_mod_self_left, Nat.mod_eq_of_lt hi, Nat.add_mul_div_left _ _ (by omega),
      Nat.div_eq_of_lt hi, Nat.zero_add]
    exact ⟨rfl, rfl⟩
  by_cases hn : 0 < n
  · have hlt : x / n < len ↔ x < n * len := by rw [Nat.div_lt_iff_lt_mul hn, Nat.mul_comm]
    rw [forLoop_single (x % n), if_pos ⟨Nat.zero_le _, Nat.mod_lt x hn⟩, forLoop_single (x / n)]
    · exact if_congr (by simp [hlt]) rfl rfl
    · intro j s _ _ hj
      exact h _ _ _ fun hx => hj (hmod (Nat.mod_lt x hn) hx).2
    · intro i s _ hi hne
      refine forLoop_inv (fun s' => s' = s) rfl fun j s' _ _ e => ?_
      rw [← e]
      exact h _ _ _ fun hx => hne (hmod hi hx).1
  · rw [forLoop_of_le (by omega), if_neg (by rw [Nat.eq_zero_of_not_pos hn, Nat.zero_mul]; omega)]

/-- **Nested loops that write `n` rows of length `len` interleaved.** -/
theorem forLoop_interleave (n len : ℕ) (g : ℕ → ℕ → α) (m : ℕ → α) :
    forLoop 0 n (fun i m => forLoop 0 len (fun j m => Function.update m (i + n * j) (g i j)) m) m =
      fun x => if x < n * len then g (x % n) (x / n) else m x := by
  funext x
  let cell (i j : ℕ) (a : α) : α := if x = i + n * j then g i j else a
  have hcell : forLoop 0 n (fun i a => forLoop 0 len (cell i) a) (m x) =
      forLoop 0 n (fun i m => forLoop 0 len (fun j m => Function.update m (i + n * j) (g i j)) m) m x :=
    (forLoop_map (fun m => m x) m fun i m => forLoop_map (fun m => m x) m fun j m =>
      (Function.update_apply m (i + n * j) (g i j) x).symm)
  rw [← hcell, forLoop_interleave_single n len x cell (m x) fun i j a hx => if_neg hx]
  by_cases hx : x < n * len
  · rw [if_pos hx, if_pos hx]
    exact if_pos (Nat.mod_add_div x n).symm
  · rw [if_neg hx, if_neg hx]

/-- Nested loops that log the interleaved places visit each of them once. -/
theorem count_interleave (n len : ℕ) {x : ℕ} (hx : x < n * len) :
    (forLoop 0 n (fun i log => forLoop 0 len (fun j log => (i + n * j) :: log) log) []).count x = 1 := by
  let visit (i j c : ℕ) : ℕ := if x = i + n * j then c + 1 else c
  have hcount : forLoop 0 n (fun i c => forLoop 0 len (visit i) c) (([] : List ℕ).count x) =
      (forLoop 0 n (fun i log => forLoop 0 len (fun j log => (i + n * j) :: log) log) []).count x :=
    forLoop_map (fun log : List ℕ => log.count x) [] fun i log => forLoop_map (fun log : List ℕ => log.count x) log
      fun j log => by
        simp only [visit, List.count_cons, beq_iff_eq]
        split_ifs <;> omega
  rw [← hcount, forLoop_interleave_single n len x visit _ fun i j c hx => if_neg hx, if_pos hx]
  exact if_pos (Nat.mod_add_div x n).symm

/-! ## Loops that can fail -/

/-- `for (i = a; i < b; i++)` with a body that can fail. -/
def forLoopM (a b : ℕ) (body : ℕ → σ → Option σ) (s : σ) : Option σ :=
  forLoop a b (fun i s => s.bind (body i)) (some s)

theorem forLoopM_succ {b : ℕ} (body : ℕ → σ → Option σ) (s : σ) :
    forLoopM 0 (b + 1) body s = (forLoopM 0 b body s).bind (body b) :=
  forLoop_succ (Nat.zero_le b) (fun i (s : Option σ) => s.bind (body i)) (some s)

/-- **The invariant rule for loops that can fail**: while the invariant holds, no turn fails. -/
theorem forLoopM_induction {a b : ℕ} {body : ℕ → σ → Option σ} {s : σ} (I : ℕ → σ → Prop) (hab : a ≤ b)
    (h₀ : I a s) (hstep : ∀ i s, a ≤ i → i < b → I i s → ∃ s', body i s = some s' ∧ I (i + 1) s') :
    ∃ s', forLoopM a b body s = some s' ∧ I b s' := by
  refine forLoop_induction (fun i r => ∃ s', r = some s' ∧ I i s') hab ⟨s, rfl, h₀⟩ ?_
  rintro i r h₁ h₂ ⟨s', rfl, hs⟩
  exact hstep i s' h₁ h₂ hs

/-- What every turn keeps if it does not fail, the loop keeps if it does not. -/
theorem forLoopM_inv {a b : ℕ} {body : ℕ → σ → Option σ} {s s' : σ} (I : σ → Prop) (h₀ : I s)
    (hstep : ∀ i s s', I s → body i s = some s' → I s') (h : forLoopM a b body s = some s') : I s' := by
  have hall : ∀ s', forLoopM a b body s = some s' → I s' := by
    refine forLoop_inv (fun r : Option σ => ∀ s', r = some s' → I s') (fun s' hs => Option.some.inj hs ▸ h₀) ?_
    intro i r _ _ hr s' hs'
    obtain ⟨s₁, rfl, hbody⟩ := Option.bind_eq_some_iff.mp hs'
    exact hstep i s₁ s' (hr s₁ rfl) hbody
  exact hall s' h

/-- Two loops in step, neither of which fails. -/
theorem forLoopM_rel {a b : ℕ} {body : ℕ → σ → Option σ} {body' : ℕ → τ → Option τ} {s : σ} {t : τ}
    (R : σ → τ → Prop) (h₀ : R s t) (hstep : ∀ i s t, a ≤ i → i < b → R s t →
      ∃ s' t', body i s = some s' ∧ body' i t = some t' ∧ R s' t') :
    ∃ s' t', forLoopM a b body s = some s' ∧ forLoopM a b body' t = some t' ∧ R s' t' := by
  refine forLoop_rel (fun r r' => ∃ s' t', r = some s' ∧ r' = some t' ∧ R s' t') ⟨s, t, rfl, rfl, h₀⟩ ?_
  rintro i r r' h₁ h₂ ⟨s', t', rfl, rfl, hR⟩
  exact hstep i s' t' h₁ h₂ hR

/-- A loop none of whose turns fails. -/
theorem forLoopM_eq_some {a b : ℕ} {body : ℕ → σ → Option σ} {g : ℕ → σ → σ} {s : σ}
    (h : ∀ i s, a ≤ i → i < b → body i s = some (g i s)) : forLoopM a b body s = some (forLoop a b g s) := by
  refine forLoop_rel (fun r s => r = some s) rfl ?_
  rintro i _ s h₁ h₂ rfl
  exact h i s h₁ h₂

/-- One more cell of a prefix. -/
theorem update_below (f m : ℕ → α) (k : ℕ) :
    Function.update (fun j => if j < k then f j else m j) k (f k) = fun j => if j < k + 1 then f j else m j := by
  funext j
  by_cases hj : j = k
  · subst hj
    rw [Function.update_self, if_pos (Nat.lt_succ_self j)]
  · rw [Function.update_of_ne hj]
    simp only [show j < k + 1 ↔ j < k by omega]

/-- A loop that fills two cells on a turn. -/
theorem forLoop_set_two (n : ℕ) (g m : ℕ → α) :
    forLoop 0 n (fun i m => Function.update (Function.update m (2 * i) (g (2 * i))) (2 * i + 1) (g (2 * i + 1))) m =
      fun x => if x < 2 * n then g x else m x := by
  refine forLoop_induction (fun i r => r = fun x => if x < 2 * i then g x else m x) (Nat.zero_le n) ?_ ?_
  · simp
  · rintro i _ _ _ rfl
    rw [update_below, update_below]
    rfl

/-- **A loop that computes cell after cell**, each from those before it. -/
theorem forLoopM_prefix {a b : ℕ} {body : ℕ → (ℕ → α) → Option (ℕ → α)} (f m : ℕ → α) (hab : a ≤ b)
    (hstep : ∀ i, a ≤ i → i < b → body i (fun j => if j < i then f j else m j) =
      some (Function.update (fun j => if j < i then f j else m j) i (f i))) :
    forLoopM a b body (fun j => if j < a then f j else m j) = some fun j => if j < b then f j else m j := by
  have hinv : ∃ r, forLoopM a b body (fun j => if j < a then f j else m j) = some r ∧
      r = fun j => if j < b then f j else m j := by
    refine forLoopM_induction (fun i r => r = fun j => if j < i then f j else m j) hab rfl ?_
    rintro i r h₁ h₂ rfl
    exact ⟨_, hstep i h₁ h₂, update_below f m i⟩
  obtain ⟨_, hloop, rfl⟩ := hinv
  exact hloop

/-- **A loop whose turns work on one cell each**, beside what they all share. -/
theorem forLoopM_cells {n : ℕ} {body : ℕ → σ → Option σ} (cell : σ → ℕ → α) (g : ℕ → α → α) (I : σ → Prop)
    (P : ℕ → α → Prop) (hbody : ∀ i s, i < n → I s → P i (cell s i) → ∃ s', body i s = some s' ∧ I s' ∧
      cell s' = Function.update (cell s) i (g i (cell s i))) {s : σ} (hI : I s) (hP : ∀ i < n, P i (cell s i)) :
    ∃ s', forLoopM 0 n body s = some s' ∧ I s' ∧ cell s' = fun i => if i < n then g i (cell s i) else cell s i := by
  refine forLoopM_induction (fun i s' => I s' ∧ cell s' = fun j => if j < i then g j (cell s j) else cell s j)
    (Nat.zero_le n) ⟨hI, by simp⟩ ?_
  rintro i s' - hi ⟨hs', hcell⟩
  have hold : cell s' i = cell s i := by
    rw [hcell]
    exact if_neg (lt_irrefl i)
  obtain ⟨s'', hturn, hs'', hnext⟩ := hbody i s' hi hs' (hold ▸ hP i hi)
  exact ⟨s'', hturn, hs'', by rw [hnext, hold, hcell, update_below (fun j => g j (cell s j))]⟩

/-! ## Tiles -/

theorem in_tile_iff {w x i : ℕ} (hw : 0 < w) : i * w ≤ x ∧ x < i * w + w ↔ i = x / w := by
  rw [eq_comm, Nat.div_eq_iff hw, Nat.mul_comm]
  omega

/-- One tile. -/
theorem forLoop_tile (w v base i j : ℕ) (g : ℕ → ℕ → α) (m : ℕ → ℕ → α) :
    forLoop 0 w (fun r m => forLoop 0 v (fun c m =>
        set2 m (i * w + r) (base + (j * v + c)) (g (i * w + r) (j * v + c))) m) m =
      fun x y => if (i * w ≤ x ∧ x < i * w + w) ∧ base + j * v ≤ y ∧ y < base + j * v + v then
        g x (y - base) else m x y := by
  simp only [← Nat.add_assoc]
  rw [forLoop_grid 0 w 0 v (i * w) (base + j * v) (fun r c _ => g (i * w + r) (j * v + c)) m]
  funext x y
  by_cases hxy : (i * w ≤ x ∧ x < i * w + w) ∧ base + j * v ≤ y ∧ y < base + j * v + v
  · rw [if_pos (by simpa using hxy), if_pos hxy]
    congr 1 <;> omega
  · rw [if_neg (by simpa using hxy), if_neg hxy]

/-- **Loops over the `n × k` tiles of a rectangle**, each setting the cells of its own tile. -/
theorem forLoop_tiles {n k w v : ℕ} (hw : 0 < w) (hv : 0 < v) (base : ℕ) (g : ℕ → ℕ → ℕ → ℕ → α)
    (m : ℕ → ℕ → α) (x y : ℕ) :
    forLoop 0 n (fun i m => forLoop 0 k (fun j m =>
        forLoop 0 w (fun r m => forLoop 0 v (fun c m =>
          set2 m (i * w + r) (base + (j * v + c)) (g i j (i * w + r) (j * v + c))) m) m) m) m x y =
      if x < n * w ∧ base ≤ y ∧ y < base + k * v then g (x / w) ((y - base) / v) x (y - base)
      else m x y := by
  let p := x / w
  let q := (y - base) / v
  let cell (i j : ℕ) (a : α) : α :=
    if (i * w ≤ x ∧ x < i * w + w) ∧ base + j * v ≤ y ∧ y < base + j * v + v then g i j x (y - base) else a
  have hcell : forLoop 0 n (fun i a => forLoop 0 k (cell i) a) (m x y) = forLoop 0 n (fun i m =>
      forLoop 0 k (fun j m => forLoop 0 w (fun r m => forLoop 0 v (fun c m =>
        set2 m (i * w + r) (base + (j * v + c)) (g i j (i * w + r) (j * v + c))) m) m) m) m x y :=
    forLoop_map (fun m => m x y) m fun i m => forLoop_map (fun m => m x y) m fun j m =>
      (congrFun₂ (forLoop_tile w v base i j (g i j) m) x y).symm
  have hx := fun i => in_tile_iff (x := x) (i := i) hw
  have hy := fun j => in_tile_iff (x := y - base) (i := j) hv
  have hp : p < n ↔ x < n * w := Nat.div_lt_iff_lt_mul hw
  have hq : q < k ↔ y - base < k * v := Nat.div_lt_iff_lt_mul hv
  rw [← hcell, forLoop_single p]
  · rw [forLoop_single q]
    · have hpx := (hx p).mpr rfl
      have hqy := (hy q).mpr rfl
      by_cases hin : x < n * w ∧ base ≤ y ∧ y < base + k * v
      · rw [if_pos ⟨Nat.zero_le _, hp.mpr hin.1⟩, if_pos ⟨Nat.zero_le _, hq.mpr (by omega)⟩, if_pos hin]
        exact if_pos ⟨hpx, by omega⟩
      · rw [if_neg hin]
        split_ifs with h₁ h₂
        · refine if_neg fun hc => hin ⟨hp.mp h₁.2, by omega, ?_⟩
          have := hq.mp h₂.2
          omega
        · rfl
        · rfl
    · intro j a _ _ hj
      refine if_neg fun hc => hj ((hy j).mp ?_)
      omega
  · intro i a _ _ hi
    refine forLoop_inv (fun a' => a' = a) rfl fun j a' _ _ e => ?_
    rw [← e]
    exact if_neg fun hc => hi ((hx i).mp hc.1)

end CLoop
