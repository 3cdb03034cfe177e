import Mathlib.Data.Nat.Basic

/-!
# Loops that may not end

A loop turns until it leaves, or does something that has no defined behaviour.

* `TurnEnd`, `Outcome`; `whileLoop`: at most so many turns; `Yields`: the outcome after some number of them;
* `Yields.unique`: there is one at most;
* **`whileLoop_of_variant`**, **`yields_of_variant`**: the rule for total correctness, with an invariant and a
  variant.
-/

namespace While

variable {σ : Type*}

/-- What one turn does: on to the next one, out of the loop, or no defined behaviour. -/
inductive TurnEnd (σ : Type*)
  | next (s : σ)
  | leave (s : σ)
  | undefined

/-- What becomes of a program that stops. -/
inductive Outcome (σ : Type*)
  | ended (s : σ)
  | undefined

/-- The outcome of a loop of at most `fuel` turns, or `none` where they are not enough. -/
def whileLoop (turn : σ → TurnEnd σ) : ℕ → σ → Option (Outcome σ)
  | 0, _ => none
  | fuel + 1, s =>
      match turn s with
      | .next s => whileLoop turn fuel s
      | .leave s => some (.ended s)
      | .undefined => some .undefined

/-- The loop from `s` stops with the outcome `o`. -/
def Yields (turn : σ → TurnEnd σ) (s : σ) (o : Outcome σ) : Prop := ∃ fuel, whileLoop turn fuel s = some o

variable {turn : σ → TurnEnd σ} {s s' : σ} {o o' : Outcome σ}

theorem yields_next (h : turn s = .next s') : Yields turn s o ↔ Yields turn s' o := by
  constructor
  · rintro ⟨fuel, hfuel⟩
    cases fuel with
    | zero => exact absurd hfuel (Option.some_ne_none o).symm
    | succ fuel =>
        rw [whileLoop, h] at hfuel
        exact ⟨fuel, hfuel⟩
  · rintro ⟨fuel, hfuel⟩
    refine ⟨fuel + 1, ?_⟩
    rw [whileLoop, h]
    exact hfuel

theorem yields_leave (h : turn s = .leave s') : Yields turn s (.ended s') :=
  ⟨1, by rw [whileLoop, h]⟩

theorem yields_undefined (h : turn s = .undefined) : Yields turn s .undefined :=
  ⟨1, by rw [whileLoop, h]⟩

/-- More turns change nothing. -/
theorem whileLoop_add {fuel : ℕ} (h : whileLoop turn fuel s = some o) (more : ℕ) :
    whileLoop turn (fuel + more) s = some o := by
  induction fuel generalizing s with
  | zero => exact absurd h (Option.some_ne_none o).symm
  | succ fuel ih =>
      rw [Nat.add_right_comm, whileLoop]
      rw [whileLoop] at h
      cases hturn : turn s with
      | next s' =>
          rw [hturn] at h
          exact ih h
      | leave s' =>
          rw [hturn] at h
          exact h
      | undefined =>
          rw [hturn] at h
          exact h

theorem Yields.unique (h : Yields turn s o) (h' : Yields turn s o') : o = o' := by
  obtain ⟨fuel, hfuel⟩ := h
  obtain ⟨fuel', hfuel'⟩ := h'
  have h₁ := whileLoop_add hfuel fuel'
  have h₂ := whileLoop_add hfuel' fuel
  rw [Nat.add_comm] at h₂
  exact Option.some.inj (h₁.symm.trans h₂)

/-- What a turn from a state of the invariant `I` with variant `μ` has to do. -/
def TurnSpec (I : σ → Prop) (μ : σ → ℕ) (Q : Outcome σ → Prop) (s : σ) : TurnEnd σ → Prop
  | .next s' => I s' ∧ μ s' < μ s
  | .leave s' => Q (.ended s')
  | .undefined => Q .undefined

/-- **The rule for total correctness, with the number of turns.** Turns that keep the invariant make the variant
smaller, and the others stop with an outcome in `Q`; so more turns than the variant says are enough. -/
theorem whileLoop_of_variant {I : σ → Prop} (μ : σ → ℕ) {Q : Outcome σ → Prop}
    (hturn : ∀ s, I s → TurnSpec I μ Q s (turn s)) (hs : I s) {fuel : ℕ} (hfuel : μ s < fuel) :
    ∃ o, whileLoop turn fuel s = some o ∧ Q o := by
  induction fuel generalizing s with
  | zero => exact absurd hfuel (Nat.not_lt_zero _)
  | succ fuel ih =>
      have h := hturn s hs
      rw [whileLoop]
      cases heq : turn s with
      | next s' =>
          rw [heq] at h
          exact ih h.1 (by have := h.2; omega)
      | leave s' =>
          rw [heq] at h
          exact ⟨.ended s', rfl, h⟩
      | undefined =>
          rw [heq] at h
          exact ⟨.undefined, rfl, h⟩

/-- **The rule for total correctness**: the loop stops, with an outcome in `Q`. -/
theorem yields_of_variant {I : σ → Prop} (μ : σ → ℕ) {Q : Outcome σ → Prop}
    (hturn : ∀ s, I s → TurnSpec I μ Q s (turn s)) (hs : I s) : ∃ o, Yields turn s o ∧ Q o := by
  obtain ⟨o, ho, hQ⟩ := whileLoop_of_variant μ hturn hs (Nat.lt_succ_self (μ s))
  exact ⟨o, ⟨_, ho⟩, hQ⟩

end While
