import Mathlib.Data.Int.Basic
import Mathlib.Data.List.Basic
import Mathlib.Order.Defs.Unbundled
import Mathlib.Tactic.Common

/-!
# C procedures with `goto end`

A statement goes on to the next one, or leaves by `goto end`, or has no defined behaviour; and it logs events.

* `Proc`: statements over a state; `jump`, `undefined`, `lift`, `emit`, `loop`, `label`;
* `Ends U x s Q J`: what holds after `x`, by the way it is left, with a rule for each construct
  (`ends_bind`, `ends_loop`); `U` is what an undefined behaviour owes;
* `Keeps R x`: `x` does not jump, and the states before and after it are related;
* `log_prefix_bind`: what is logged stays logged.
-/

/-- The way a statement is left. -/
inductive Exit (α : Type)
  | next (a : α)
  | jump
  | undefined
  deriving DecidableEq

/-- What a statement does. -/
structure Ran (σ ε α : Type) where
  exit : Exit α
  state : σ
  log : List ε

/-- A statement, or a procedure. -/
def Proc (σ ε α : Type) : Type := σ → Ran σ ε α

namespace Proc

variable {σ ε α β : Type}

/-- What comes after a statement that was left the way `e`. -/
def andThen (r : Ran σ ε α) (f : α → Proc σ ε β) : Ran σ ε β :=
  match r.exit with
  | .next a => ⟨(f a r.state).exit, (f a r.state).state, r.log ++ (f a r.state).log⟩
  | .jump => ⟨.jump, r.state, r.log⟩
  | .undefined => ⟨.undefined, r.state, r.log⟩

instance : Monad (Proc σ ε) where
  pure a := fun s => ⟨.next a, s, []⟩
  bind x f := fun s => andThen (x s) f

/-- `goto end`. -/
def jump : Proc σ ε α := fun s => ⟨.jump, s, []⟩

/-- No defined behaviour. -/
def undefined : Proc σ ε α := fun s => ⟨.undefined, s, []⟩

/-- The value of an expression, if it is defined. -/
def lift : Option α → Proc σ ε α
  | some a => pure a
  | none => undefined

def emit (e : ε) : Proc σ ε Unit := fun s => ⟨.next (), s, [e]⟩

/-- `for (i = 0; i < n; i++)`. -/
def loop : ℕ → (ℕ → Proc σ ε Unit) → Proc σ ε Unit
  | 0, _ => pure ()
  | n + 1, body => do
    loop n body
    body n

/-- `x; end: y`, where `x` ends by `return` if it does not jump. -/
def label (x y : Proc σ ε α) : Proc σ ε α := fun s =>
  match (x s).exit with
  | .jump => ⟨(y (x s).state).exit, (y (x s).state).state, (x s).log ++ (y (x s).state).log⟩
  | _ => x s

/-! ## What holds afterwards -/

section Ends

/-- After `x`: `Q` if it goes on, `J` if it jumps, and `U` if it is undefined. -/
def Ends (U : Prop) (x : Proc σ ε α) (s : σ) (Q : α → σ → Prop) (J : σ → Prop) : Prop :=
  match (x s).exit with
  | .next a => Q a (x s).state
  | .jump => J (x s).state
  | .undefined => U

variable {U : Prop} {x : Proc σ ε α} {s : σ} {Q Q' : α → σ → Prop} {J J' : σ → Prop}

@[simp] theorem ends_pure (a : α) : Ends U (pure a : Proc σ ε α) s Q J ↔ Q a s := Iff.rfl

@[simp] theorem ends_emit (e : ε) {Q : Unit → σ → Prop} : Ends U (emit e) s Q J ↔ Q () s := Iff.rfl

@[simp] theorem ends_lift_some (a : α) : Ends U (lift (some a) : Proc σ ε α) s Q J ↔ Q a s := Iff.rfl

@[simp] theorem ends_lift_none : Ends U (lift none : Proc σ ε α) s Q J ↔ U := Iff.rfl

@[simp] theorem ends_bind (f : α → Proc σ ε β) {Q : β → σ → Prop} :
    Ends U (x >>= f) s Q J ↔ Ends U x s (fun a t => Ends U (f a) t Q J) J := by
  have hbind : (x >>= f) s = andThen (x s) f := rfl
  unfold Ends
  rw [hbind]
  rcases x s with ⟨e, t, l⟩
  cases e <;> rfl

theorem Ends.mono (h : Ends U x s Q J) (hQ : ∀ a t, Q a t → Q' a t) (hJ : ∀ t, J t → J' t) :
    Ends U x s Q' J' := by
  unfold Ends at *
  cases hx : (x s).exit with
  | next a =>
      rw [hx] at h
      exact hQ a _ h
  | jump =>
      rw [hx] at h
      exact hJ _ h
  | undefined =>
      rw [hx] at h
      exact h

/-- The sequence rule. -/
theorem Ends.bind {f : α → Proc σ ε β} {Q' : β → σ → Prop} (h : Ends U x s Q J)
    (hf : ∀ a t, Q a t → Ends U (f a) t Q' J) : Ends U (x >>= f) s Q' J :=
  (ends_bind f).mpr (h.mono hf fun _ ht => ht)

/-- The loop rule: the invariant says what holds before turn `i`. -/
theorem ends_loop {n : ℕ} {body : ℕ → Proc σ ε Unit} (I : ℕ → σ → Prop) (h₀ : I 0 s)
    (h : ∀ i < n, ∀ t, I i t → Ends U (body i) t (fun _ => I (i + 1)) J) :
    Ends U (loop n body) s (fun _ => I n) J := by
  induction n with
  | zero => exact h₀
  | succ n ih =>
      exact (ih fun i hi => h i (by omega)).bind fun _ t ht => h n (Nat.lt_succ_self n) t ht

/-- What a procedure that does not jump returns. -/
theorem Ends.next {a : α} (h : Ends U x s Q J) (hx : (x s).exit = .next a) : Q a (x s).state := by
  unfold Ends at h
  rwa [hx] at h

theorem Ends.defined (h : Ends False x s Q J) : (x s).exit ≠ .undefined := by
  intro hx
  unfold Ends at h
  rwa [hx] at h

theorem Ends.undefined (h : Ends True x s (fun _ _ => False) fun _ => False) : (x s).exit = .undefined := by
  unfold Ends at h
  cases hx : (x s).exit <;> rw [hx] at h <;> trivial

end Ends

/-! ## What it keeps -/

section Keeps

/-- `x` does not jump, and the state after it is related to the one before. -/
def Keeps (R : σ → σ → Prop) (x : Proc σ ε α) : Prop := ∀ s, Ends True x s (fun _ => R s) fun _ => False

variable {R : σ → σ → Prop} {x : Proc σ ε α}

theorem Keeps.pure [Std.Refl R] (a : α) : Keeps R (Pure.pure a : Proc σ ε α) := fun s => refl_of R s

theorem Keeps.bind [IsTrans σ R] {f : α → Proc σ ε β} (hx : Keeps R x) (hf : ∀ a, Keeps R (f a)) :
    Keeps R (x >>= f) := fun s =>
  (hx s).bind fun a t ht => (hf a t).mono (fun _ _ htu => trans_of R ht htu) fun _ h => h

theorem Keeps.loop [Std.Refl R] [IsTrans σ R] {body : ℕ → Proc σ ε Unit} (h : ∀ i, Keeps R (body i)) (n : ℕ) :
    Keeps R (loop n body) := by
  induction n with
  | zero => exact Keeps.pure ()
  | succ n ih => exact ih.bind fun _ => h n

/-- A procedure that does not jump returns, where it is defined. -/
theorem Keeps.exists_next (hx : Keeps R x) {s : σ} (hdef : (x s).exit ≠ .undefined) :
    ∃ a, (x s).exit = .next a ∧ R s (x s).state := by
  have hends := hx s
  unfold Ends at hends
  cases hexit : (x s).exit with
  | next a =>
      rw [hexit] at hends
      exact ⟨a, rfl, hends⟩
  | jump =>
      rw [hexit] at hends
      exact hends.elim
  | undefined => exact absurd hexit hdef

end Keeps

/-! ## Running -/

theorem bind_of_next {x : Proc σ ε α} {s t : σ} {a : α} {l : List ε} (hx : x s = ⟨.next a, t, l⟩)
    (f : α → Proc σ ε β) : (x >>= f) s = ⟨(f a t).exit, (f a t).state, l ++ (f a t).log⟩ := by
  show andThen (x s) f = _
  rw [hx]
  rfl

theorem bind_of_undefined {x : Proc σ ε α} {s t : σ} {l : List ε} (hx : x s = ⟨.undefined, t, l⟩)
    (f : α → Proc σ ε β) : (x >>= f) s = ⟨.undefined, t, l⟩ := by
  show andThen (x s) f = _
  rw [hx]
  rfl

/-- What is logged first is logged first of all. -/
theorem log_prefix_bind (x : Proc σ ε α) (f : α → Proc σ ε β) (s : σ) : (x s).log <+: ((x >>= f) s).log := by
  show (x s).log <+: (andThen (x s) f).log
  unfold andThen
  split
  · exact List.prefix_append _ _
  · exact List.prefix_refl _
  · exact List.prefix_refl _

theorem label_of_jump {x : Proc σ ε α} {s : σ} (y : Proc σ ε α) (hx : (x s).exit = .jump) :
    (label x y s).exit = (y (x s).state).exit ∧ (label x y s).state = (y (x s).state).state := by
  unfold label
  rw [hx]
  exact ⟨rfl, rfl⟩

theorem label_of_ne_jump {x : Proc σ ε α} {s : σ} (y : Proc σ ε α) (hx : (x s).exit ≠ .jump) : label x y s = x s := by
  unfold label
  split
  · rename_i hjump
    exact absurd hjump hx
  · rfl

theorem log_prefix_label (x y : Proc σ ε α) (s : σ) : (x s).log <+: ((label x y) s).log := by
  unfold label
  split
  · exact List.prefix_append _ _
  · exact List.prefix_refl _

end Proc
