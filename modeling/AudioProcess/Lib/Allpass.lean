import Mathlib.Data.Int.Order.Lemmas
import Mathlib.Tactic.Linarith
import Mathlib.Tactic.LinearCombination
import Mathlib.Tactic.Positivity
import Mathlib.Tactic.Ring

/-!
# First-order all-pass sections on integers

`y[n] = x[n-1] + a (x[n] - y[n-1])` with `a = A / Q` and the product rounded down.

* `Section`, `next`, `orbit`, `filtered`: a section, its turn, its states and its outputs on a signal;
* `orbit_add`: a section goes on where it stopped; `orbit_congr`: it reads no sample ahead;
* `Bounded`: a bound for the states on signals of at most `M`, with an allowance for the rounding; **`Bounded.next`**:
  each turn keeps it; `Bounded.output_le`: the bound of the outputs, `1 + 2a` times that of the inputs.
-/

namespace Allpass

/-- A section: its last input and its last output. -/
structure Section where
  x : ℤ
  y : ℤ

variable (Q A : ℤ)

/-- The section after one more input. -/
def Section.next (s : Section) (x : ℤ) : Section := ⟨x, s.x + A * (x - s.y) / Q⟩

/-- The section after the first inputs of a signal. -/
def orbit (s : Section) (x : ℕ → ℤ) : ℕ → Section
  | 0 => s
  | k + 1 => (orbit s x k).next Q A (x k)

/-- The outputs on a signal. -/
def filtered (s : Section) (x : ℕ → ℤ) (k : ℕ) : ℤ := (orbit Q A s x (k + 1)).y

section Orbit

variable {Q A} {s : Section} {x x' : ℕ → ℤ} {n : ℕ}

/-- The last input and the last output. -/
theorem orbit_eq (hn : 0 < n) : orbit Q A s x n = ⟨x (n - 1), filtered Q A s x (n - 1)⟩ := by
  obtain ⟨k, rfl⟩ := Nat.exists_eq_succ_of_ne_zero hn.ne'
  rfl

/-- **A section goes on where it stopped.** -/
theorem orbit_add (s : Section) (x : ℕ → ℤ) (n k : ℕ) :
    orbit Q A s x (n + k) = orbit Q A (orbit Q A s x n) (fun j => x (n + j)) k := by
  induction k with
  | zero => rfl
  | succ k ih =>
      rw [← Nat.add_assoc]
      simp only [orbit, ih]

theorem filtered_add (s : Section) (x : ℕ → ℤ) (n k : ℕ) :
    filtered Q A s x (n + k) = filtered Q A (orbit Q A s x n) (fun j => x (n + j)) k := by
  unfold filtered
  rw [Nat.add_assoc, orbit_add]

/-- The section reads no sample ahead. -/
theorem orbit_congr (h : ∀ k < n, x k = x' k) : orbit Q A s x n = orbit Q A s x' n := by
  induction n with
  | zero => rfl
  | succ n ih =>
      simp only [orbit]
      rw [ih fun k hk => h k (by omega), h n (by omega)]

theorem filtered_congr {k : ℕ} (h : ∀ j ≤ k, x j = x' j) : filtered Q A s x k = filtered Q A s x' k := by
  unfold filtered
  rw [orbit_congr fun j hj => h j (by omega)]

end Orbit

/-! ## Bounds -/

/-- On signals of at most `M`, what the output has beyond its direct part `a x` is at most `(1 + a) M`, up to the
allowance `W` for the rounding. -/
structure Bounded (M W : ℤ) (s : Section) : Prop where
  input : |s.x| ≤ M
  rest : |Q * s.y - A * s.x| ≤ (Q + A) * M + W

section Bounds

variable {Q A} {M W : ℤ} {s : Section} {x : ℤ}

theorem Bounded.zero (hQ : 0 ≤ Q + A) (hM : 0 ≤ M) (hW : 0 ≤ W) : Bounded Q A M W ⟨0, 0⟩ := by
  refine ⟨by simpa using hM, ?_⟩
  simp only [mul_zero, sub_zero, abs_zero]
  positivity

/-- **A turn keeps the bound.** -/
theorem Bounded.next (hQ : 0 < Q) (hA : 0 ≤ A) (hAQ : A ≤ Q) (hW : Q * Q ≤ (Q - A) * W) (hs : Bounded Q A M W s)
    (hx : |x| ≤ M) : Bounded Q A M W (s.next Q A x) := by
  refine ⟨hx, ?_⟩
  obtain ⟨hin, hrest⟩ := hs
  rw [abs_le] at hin hrest
  -- the new rest is `Q x[n-1] - A y[n-1]`, less a rounding of at most `Q`
  have hdiv := Int.emod_add_mul_ediv (A * (x - s.y)) Q
  have hlow := Int.emod_nonneg (A * (x - s.y)) hQ.ne'
  have hhigh := Int.emod_lt_of_pos (A * (x - s.y)) hQ
  have hnew : Q * (s.next Q A x).y - A * (s.next Q A x).x =
      Q * s.x - A * s.y - A * (x - s.y) % Q := by
    simp only [Section.next]
    linear_combination hdiv
  rw [hnew, abs_le]
  -- `Q` times the old part is `(Q² - A²) x[n-1]` less `A` times the old rest
  have hsplit : Q * (Q * s.x - A * s.y) = (Q - A) * (Q + A) * s.x - A * (Q * s.y - A * s.x) := by ring
  have hfar : 0 ≤ (Q - A) * (Q + A) := mul_nonneg (by linarith) (by linarith)
  have hx₁ := mul_le_mul_of_nonneg_left hin.2 hfar
  have hx₂ := mul_le_mul_of_nonneg_left hin.1 hfar
  have hr₁ := mul_le_mul_of_nonneg_left hrest.2 hA
  have hr₂ := mul_le_mul_of_nonneg_left hrest.1 hA
  constructor
  · refine le_of_mul_le_mul_left ?_ hQ
    nlinarith
  · refine le_of_mul_le_mul_left ?_ hQ
    nlinarith

/-- **The outputs of signals of at most `M`.** -/
theorem Bounded.output_le {M' : ℤ} (hQ : 0 < Q) (hA : 0 ≤ A) (hs : Bounded Q A M W s)
    (hM' : (Q + 2 * A) * M + W ≤ Q * M') : |s.y| ≤ M' := by
  obtain ⟨hin, hrest⟩ := hs
  rw [abs_le] at hin hrest ⊢
  have h₁ := mul_le_mul_of_nonneg_left hin.1 hA
  have h₂ := mul_le_mul_of_nonneg_left hin.2 hA
  constructor
  · refine le_of_mul_le_mul_left ?_ hQ
    linarith
  · refine le_of_mul_le_mul_left ?_ hQ
    linarith

theorem Bounded.orbit (hQ : 0 < Q) (hA : 0 ≤ A) (hAQ : A ≤ Q) (hW : Q * Q ≤ (Q - A) * W) (hs : Bounded Q A M W s)
    {x : ℕ → ℤ} {n : ℕ} (hx : ∀ k < n, |x k| ≤ M) : Bounded Q A M W (orbit Q A s x n) := by
  induction n with
  | zero => exact hs
  | succ n ih => exact (ih fun k hk => hx k (by omega)).next hQ hA hAQ hW (hx n (by omega))

end Bounds

end Allpass
