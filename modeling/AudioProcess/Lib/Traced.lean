import AudioProcess.Lib.Loop
import Mathlib.Data.List.Count

/-!
# Computations that log what they touch

`Traced ε α` is a value with the events on the way to it; forgetting the events gives the plain
computation back.

* `Traced.loop`: a counted loop; `Traced.val_loop`: its value is the plain loop's;
* `Traced.All`: a property of every event, with a rule for each construct;
* `Traced.count_bind`, **`Traced.count_loop`**, **`Traced.count_loops`**: how often an event occurs;
* `Traced.before_of_first`: what the first of two computations did comes before what the second does.
-/

/-- A value and the log of the events on the way to it. -/
structure Traced (ε : Type*) (α : Type*) where
  val : α
  log : List ε

namespace Traced

open CLoop

universe u

variable {ε : Type*} {σ α β : Type u}

instance : Monad (Traced ε) where
  pure a := ⟨a, []⟩
  bind x f := ⟨(f x.val).val, x.log ++ (f x.val).log⟩

@[simp] theorem val_pure (a : α) : (pure a : Traced ε α).val = a := rfl

@[simp] theorem log_pure (a : α) : (pure a : Traced ε α).log = [] := rfl

@[simp] theorem val_bind (x : Traced ε α) (f : α → Traced ε β) : (x >>= f).val = (f x.val).val := rfl

@[simp] theorem log_bind (x : Traced ε α) (f : α → Traced ε β) : (x >>= f).log = x.log ++ (f x.val).log := rfl

/-- `for (i = a; i < b; i++)`. -/
def loop (a b : ℕ) (body : ℕ → σ → Traced ε σ) (s : σ) : Traced ε σ :=
  forLoop a b (fun i s => s >>= body i) (pure s)

theorem loop_of_le {a b : ℕ} (h : b ≤ a) (body : ℕ → σ → Traced ε σ) (s : σ) : loop a b body s = pure s :=
  forLoop_of_le h _ _

theorem loop_succ {a b : ℕ} (h : a ≤ b) (body : ℕ → σ → Traced ε σ) (s : σ) :
    loop a (b + 1) body s = loop a b body s >>= body b := forLoop_succ h _ _

@[simp] theorem val_loop (a b : ℕ) (body : ℕ → σ → Traced ε σ) (s : σ) :
    (loop a b body s).val = forLoop a b (fun i s => (body i s).val) s :=
  forLoop_rel (fun (x : Traced ε σ) t => x.val = t) rfl fun i x t _ _ e => by rw [val_bind, e]

/-! ## Every event -/

/-- Every event satisfies `P`. -/
def All (P : ε → Prop) (x : Traced ε α) : Prop := ∀ e ∈ x.log, P e

variable {P : ε → Prop}

theorem All.pure (a : α) : All P (Pure.pure a) := List.forall_mem_nil P

theorem All.bind {x : Traced ε α} {f : α → Traced ε β} (hx : All P x) (hf : All P (f x.val)) :
    All P (x >>= f) := List.forall_mem_append.mpr ⟨hx, hf⟩

/-- The turns of a loop, from states that an invariant describes. -/
theorem All.loop_inv {a b : ℕ} {body : ℕ → σ → Traced ε σ} {s : σ} (I : σ → Prop) (h₀ : I s)
    (h : ∀ i s, a ≤ i → i < b → I s → All P (body i s) ∧ I (body i s).val) : All P (loop a b body s) := by
  have hboth : All P (loop a b body s) ∧ I (loop a b body s).val :=
    forLoop_inv (fun x : Traced ε σ => All P x ∧ I x.val) ⟨All.pure s, h₀⟩ fun i x h₁ h₂ hx =>
      ⟨hx.1.bind (h i x.val h₁ h₂ hx.2).1, (h i x.val h₁ h₂ hx.2).2⟩
  exact hboth.1

theorem All.loop {a b : ℕ} {body : ℕ → σ → Traced ε σ} (s : σ)
    (h : ∀ i s, a ≤ i → i < b → All P (body i s)) : All P (loop a b body s) :=
  All.loop_inv (fun _ => True) trivial fun i s h₁ h₂ _ => ⟨h i s h₁ h₂, trivial⟩

theorem All.mono {Q : ε → Prop} {x : Traced ε α} (hPQ : ∀ e, P e → Q e) (hx : All P x) : All Q x :=
  fun e he => hPQ e (hx e he)

/-! ## How often -/

section Count

variable [DecidableEq ε] {e : ε}

theorem count_bind (x : Traced ε α) (f : α → Traced ε β) :
    (x >>= f).log.count e = x.log.count e + (f x.val).log.count e := List.count_append

theorem All.count_eq_zero {x : Traced ε α} (hx : All (· ≠ e) x) : x.log.count e = 0 :=
  List.count_eq_zero_of_not_mem fun he => hx e he rfl

/-- **An event of one turn alone.** -/
theorem count_loop {a b : ℕ} {body : ℕ → σ → Traced ε σ} (s : σ) (k n : ℕ)
    (hk : ∀ s, a ≤ k → k < b → (body k s).log.count e = n)
    (h : ∀ i s, a ≤ i → i < b → i ≠ k → (body i s).log.count e = 0) :
    (loop a b body s).log.count e = if a ≤ k ∧ k < b then n else 0 := by
  by_cases hab : a ≤ b
  · induction b, hab using Nat.le_induction with
    | base => rw [loop_of_le le_rfl, if_neg (by omega), log_pure, List.count_nil]
    | succ b hab ih =>
        rw [loop_succ hab, count_bind, ih (fun s h₁ h₂ => hk s h₁ (by omega))
          fun i s h₁ h₂ => h i s h₁ (by omega)]
        by_cases hkb : k = b
        · rw [if_neg (by omega), if_pos (by omega), Nat.zero_add, ← hkb, hk _ (by omega) (by omega)]
        · rw [h b _ hab (Nat.lt_succ_self b) (Ne.symm hkb), Nat.add_zero]
          exact if_congr (by omega) rfl rfl
  · rw [loop_of_le (by omega), if_neg (by omega), log_pure, List.count_nil]

/-- **An event of one turn of two nested loops.** -/
theorem count_loops {r₀ r₁ c₀ c₁ : ℕ} {body : ℕ → ℕ → σ → Traced ε σ} (s : σ) (p q n : ℕ)
    (h : ∀ r k s, r₀ ≤ r → r < r₁ → c₀ ≤ k → k < c₁ →
      (body r k s).log.count e = if r = p ∧ k = q then n else 0) :
    (loop r₀ r₁ (fun r s => loop c₀ c₁ (body r) s) s).log.count e =
      if (r₀ ≤ p ∧ p < r₁) ∧ c₀ ≤ q ∧ q < c₁ then n else 0 := by
  have hrow : ∀ r s, r₀ ≤ r → r < r₁ → (loop c₀ c₁ (body r) s).log.count e =
      if c₀ ≤ q ∧ q < c₁ then (if r = p then n else 0) else 0 := by
    intro r s h₁ h₂
    refine count_loop s q _ (fun s h₃ h₄ => ?_) fun k s h₃ h₄ hk => ?_
    · rw [h r q s h₁ h₂ h₃ h₄]
      exact if_congr (and_iff_left rfl) rfl rfl
    · rw [h r k s h₁ h₂ h₃ h₄, if_neg fun hpq => hk hpq.2]
  rw [count_loop s p (if c₀ ≤ q ∧ q < c₁ then n else 0), ← ite_and]
  · intro s h₁ h₂
    rw [hrow p s h₁ h₂, if_pos rfl]
  · intro r s h₁ h₂ hr
    rw [hrow r s h₁ h₂, if_neg hr, ite_self]

end Count

/-- An event of the second computation comes after all those of the first. -/
theorem before_of_first {x : Traced ε α} {f : α → Traced ε β} {e : ε} {pre : List ε}
    (hx : All (· ≠ e) x) (hpre : pre ++ [e] <+: (x >>= f).log) : x.log <+: pre := by
  rw [log_bind] at hpre
  rcases List.prefix_or_prefix_of_prefix hpre (List.prefix_append x.log _) with h | h
  · exact absurd rfl (hx e (h.subset (List.mem_append_right pre List.mem_cons_self)))
  · rcases List.prefix_concat_iff.mp h with heq | hle
    · exact absurd rfl (hx e (heq ▸ List.mem_append_right pre List.mem_cons_self))
    · exact hle

end Traced
