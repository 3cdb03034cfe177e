import Mathlib.Data.Int.Basic
import Mathlib.Tactic.Linarith

/-!
# Conversions between C integer types

* `toInt32`, `toUInt32`: the value of an integer after conversion to a 32-bit `int` or
  `unsigned int` (two's complement);
* both are the identity on the values of the target type;
* `checked`: the result of an operation on `int`s, where it does not overflow;
* `div`: the quotient of two `int`s, where it is defined; `tdiv_tdiv`: one division for two.
-/

namespace CInt

/-- The largest `int`. -/
def intMax : ℤ := 2 ^ 31 - 1

/-- Conversion to `int`. -/
def toInt32 (x : ℤ) : ℤ := Int.bmod x (2 ^ 32)

/-- Conversion to `unsigned int`. -/
def toUInt32 (x : ℤ) : ℕ := (x % 2 ^ 32).toNat

/-- The least `int`. -/
def intMin : ℤ := -2 ^ 31

/-- `a / b` for `int`s: rounded toward zero, and undefined for `b = 0` and on overflow. -/
def div (a b : ℤ) : Option ℤ := if b = 0 ∨ (a = intMin ∧ b = -1) then none else some (a.tdiv b)

/-- The result of an operation on `int`s, undefined on overflow. -/
def checked (x : ℤ) : Option ℤ := if intMin ≤ x ∧ x ≤ intMax then some x else none

theorem checked_of_range {x : ℤ} (h₁ : intMin ≤ x) (h₂ : x ≤ intMax) : checked x = some x := if_pos ⟨h₁, h₂⟩

theorem checked_of_gt {x : ℤ} (h : intMax < x) : checked x = none := if_neg fun hx => not_le.mpr h hx.2

theorem div_of_pos {a b : ℤ} (ha : 0 ≤ a) (hb : 0 < b) : div a b = some (a / b) := by
  unfold div
  rw [if_neg (by omega), Int.tdiv_eq_ediv_of_nonneg ha]

theorem toInt32_of_range {x : ℤ} (h₁ : 0 ≤ x) (h₂ : x ≤ intMax) : toInt32 x = x := by
  unfold toInt32 intMax at *
  rw [Int.bmod_def]
  split_ifs <;> omega

theorem toUInt32_of_range {x : ℤ} (h₁ : 0 ≤ x) (h₂ : x < 2 ^ 32) : toUInt32 x = x.toNat := by
  unfold toUInt32
  rw [Int.emod_eq_of_lt h₁ h₂]

theorem toUInt32_natCast {n : ℕ} (h : n < 2 ^ 32) : toUInt32 n = n := by
  rw [toUInt32_of_range (by omega) (by omega), Int.toNat_natCast]

/-- Rounding toward zero twice is rounding once. -/
theorem tdiv_tdiv (a b c : ℤ) : (a.tdiv b).tdiv c = a.tdiv (b * c) := by
  have hnat : ∀ l m n : ℕ, ((l : ℤ).tdiv m).tdiv n = (l : ℤ).tdiv (m * n : ℕ) := by
    intro l m n
    rw [← Int.ofNat_tdiv, ← Int.ofNat_tdiv, ← Int.ofNat_tdiv, Nat.div_div_eq_div_mul]
  obtain ⟨l, rfl | rfl⟩ := a.eq_nat_or_neg <;> obtain ⟨m, rfl | rfl⟩ := b.eq_nat_or_neg <;>
    obtain ⟨n, rfl | rfl⟩ := c.eq_nat_or_neg <;>
    simp only [Int.neg_tdiv, Int.tdiv_neg, Int.neg_mul, Int.mul_neg, neg_neg, ← Int.natCast_mul, hnat]

end CInt
