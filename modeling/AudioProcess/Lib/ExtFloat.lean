import AudioProcess.Lib.CFloat

/-!
# Floating point with infinities and NaN

`ExtFloat` is the IEEE 754 value model without rounding: real numbers, two infinities, NaN. Division by
zero, products of zero and infinity, and comparisons follow the standard; zero has no sign.

* `fin_add`, `fin_mul`, `fin_div`, …: on numbers the operations are the real ones;
* `div_zero`, `inf_mul_zero`, `nan_add`, `not_nan_lt`, …: the special values;
* `ofBits`: the value of the 32 bits of a `float`; `ofBits_eq_zero_iff`.
-/

/-- A floating-point value. -/
inductive ExtFloat
  | fin (x : ℝ)
  | inf (neg : Bool)
  | nan

namespace ExtFloat

noncomputable section

open Classical

def add : ExtFloat → ExtFloat → ExtFloat
  | fin x, fin y => fin (x + y)
  | inf s, inf t => if s = t then inf s else nan
  | inf s, fin _ => inf s
  | fin _, inf t => inf t
  | _, _ => nan

def neg : ExtFloat → ExtFloat
  | fin x => fin (-x)
  | inf s => inf (!s)
  | nan => nan

def mul : ExtFloat → ExtFloat → ExtFloat
  | fin x, fin y => fin (x * y)
  | inf s, inf t => inf (s != t)
  | inf s, fin y => if y = 0 then nan else inf (s != decide (y < 0))
  | fin x, inf t => if x = 0 then nan else inf (decide (x < 0) != t)
  | _, _ => nan

def div : ExtFloat → ExtFloat → ExtFloat
  | fin x, fin y => if y ≠ 0 then fin (x / y) else if x = 0 then nan else inf (decide (x < 0))
  | fin _, inf _ => fin 0
  | inf s, fin y => inf (s != decide (y < 0))
  | _, _ => nan

/-- `<`, false when an operand is NaN. -/
def Lt : ExtFloat → ExtFloat → Prop
  | fin x, fin y => x < y
  | inf s, fin _ => s = true
  | fin _, inf t => t = false
  | inf s, inf t => s = true ∧ t = false
  | _, _ => False

/-- `<=`, false when an operand is NaN. -/
def Le : ExtFloat → ExtFloat → Prop
  | fin x, fin y => x ≤ y
  | inf s, fin _ => s = true
  | fin _, inf t => t = false
  | inf s, inf t => s = true ∨ t = false
  | _, _ => False

/-- A function on numbers, extended. -/
def lift (f : ℝ → ℝ) : ExtFloat → ExtFloat
  | fin x => fin (f x)
  | _ => nan

instance : CFloat ExtFloat where
  add := add
  sub a b := add a (neg b)
  mul := mul
  div := div
  neg := neg
  lt := Lt
  le := Le
  ofRat q := fin q
  sqrt
    | fin x => if x < 0 then nan else fin (Real.sqrt x)
    | inf s => if s then nan else inf s
    | nan => nan
  cos := lift Real.cos
  pi := fin Real.pi
  trunc
    | fin x => CFloat.trunc x
    | _ => 0
  decLt _ _ := inferInstance
  decLe _ _ := inferInstance

open CFloat

variable (x y : ℝ)

@[simp] theorem ofRat_eq (q : ℚ) : (ofRat q : ExtFloat) = fin q := rfl
@[simp] theorem fin_add : fin x + fin y = fin (x + y) := rfl
@[simp] theorem fin_sub : fin x - fin y = fin (x - y) := by
  rw [sub_eq_add_neg]
  rfl
@[simp] theorem fin_mul : fin x * fin y = fin (x * y) := rfl
@[simp] theorem fin_lt : fin x < fin y ↔ x < y := Iff.rfl
@[simp] theorem fin_le : fin x ≤ fin y ↔ x ≤ y := Iff.rfl
@[simp] theorem inf_le_fin (s : Bool) : inf s ≤ fin y ↔ s = true := Iff.rfl
@[simp] theorem fin_le_inf (s : Bool) : fin x ≤ inf s ↔ s = false := Iff.rfl
@[simp] theorem inf_le_inf (s t : Bool) : inf s ≤ inf t ↔ s = true ∨ t = false := Iff.rfl

variable {x y}

theorem fin_div (hy : y ≠ 0) : fin x / fin y = fin (x / y) := if_pos hy

theorem fin_sqrt (hx : 0 ≤ x) : (sqrt (fin x) : ExtFloat) = fin (Real.sqrt x) := if_neg (not_lt.mpr hx)

/-- A positive number over zero. -/
theorem div_zero (hx : 0 < x) : fin x / fin 0 = inf false := by
  show div (fin x) (fin 0) = _
  simp [div, hx.ne', hx.le]

@[simp] theorem inf_mul_zero (s : Bool) : inf s * fin 0 = nan := if_pos rfl

@[simp] theorem nan_add (a : ExtFloat) : nan + a = nan := by cases a <;> rfl

@[simp] theorem add_nan (a : ExtFloat) : a + nan = nan := by cases a <;> rfl

@[simp] theorem add_fin_zero (a : ExtFloat) : a + fin 0 = a := by
  cases a with
  | fin x => rw [fin_add, add_zero]
  | inf s => rfl
  | nan => rfl

@[simp] theorem fin_zero_add (a : ExtFloat) : fin 0 + a = a := by
  cases a with
  | fin x => rw [fin_add, zero_add]
  | inf s => rfl
  | nan => rfl

theorem not_nan_lt (a : ExtFloat) : ¬ nan < a := by cases a <;> exact id

theorem not_lt_nan (a : ExtFloat) : ¬ a < nan := by cases a <;> exact id

theorem not_inf_lt (a : ExtFloat) : ¬ inf false < a := by
  cases a with
  | fin y => exact Bool.false_ne_true
  | inf t => exact fun h => Bool.false_ne_true h.1
  | nan => exact id

theorem not_nan_le (a : ExtFloat) : ¬ nan ≤ a := by cases a <;> exact id

theorem not_le_nan (a : ExtFloat) : ¬ a ≤ nan := by cases a <;> exact id

/-- What is not NaN is in order. -/
theorem le_self {a : ExtFloat} (h : a ≠ nan) : a ≤ a := by
  cases a with
  | fin x => exact le_refl x
  | inf s => cases s <;> simp
  | nan => exact absurd rfl h

theorem le_trans {a b c : ExtFloat} (hab : a ≤ b) (hbc : b ≤ c) : a ≤ c := by
  cases a with
  | nan => exact absurd hab (not_nan_le b)
  | inf s =>
      cases s with
      | true =>
          cases c with
          | fin z => exact rfl
          | inf t => exact Or.inl rfl
          | nan => exact absurd hbc (not_le_nan _)
      | false =>
          cases b with
          | fin y => exact absurd hab Bool.false_ne_true
          | inf t =>
              obtain rfl : t = false := hab.resolve_left Bool.false_ne_true
              exact hbc
          | nan => exact absurd hab (not_le_nan _)
  | fin x =>
      cases b with
      | nan => exact absurd hab (not_le_nan _)
      | inf t =>
          obtain rfl : t = false := hab
          cases c with
          | fin z => exact absurd hbc Bool.false_ne_true
          | inf t => exact hbc.resolve_left Bool.false_ne_true
          | nan => exact absurd hbc (not_le_nan _)
      | fin y =>
          cases c with
          | fin z => exact LE.le.trans (α := ℝ) hab hbc
          | inf t => exact hbc
          | nan => exact absurd hbc (not_le_nan _)

/-- What is at least a number is one, or infinite. -/
theorem eq_inf_or_fin {a : ExtFloat} (h : fin x ≤ a) : a = inf false ∨ ∃ y, a = fin y ∧ x ≤ y := by
  cases a with
  | fin y => exact Or.inr ⟨y, rfl, h⟩
  | inf s =>
      obtain rfl : s = false := h
      exact Or.inl rfl
  | nan => exact absurd h (not_le_nan _)

/-- What lies between two numbers is a number. -/
theorem exists_fin {a : ExtFloat} (hx : fin x ≤ a) (hy : a ≤ fin y) : ∃ z, a = fin z ∧ x ≤ z ∧ z ≤ y := by
  cases a with
  | fin z => exact ⟨z, rfl, hx, hy⟩
  | inf s => exact absurd (hx.symm.trans hy) Bool.false_ne_true
  | nan => exact absurd hx (not_le_nan _)

/-- A sum of values that are not negative is at least each of them. -/
theorem le_add {a b : ExtFloat} (ha : fin 0 ≤ a) (hb : fin 0 ≤ b) : a ≤ a + b ∧ b ≤ a + b := by
  cases a with
  | nan => exact absurd ha (not_le_nan _)
  | inf s =>
      obtain rfl : s = false := ha
      cases b with
      | fin y => exact ⟨Or.inr rfl, rfl⟩
      | inf t =>
          obtain rfl : t = false := hb
          exact ⟨Or.inr rfl, Or.inr rfl⟩
      | nan => exact absurd hb (not_le_nan _)
  | fin x =>
      cases b with
      | fin y =>
          exact ⟨le_add_of_nonneg_right (show (0 : ℝ) ≤ y from hb), le_add_of_nonneg_left (show (0 : ℝ) ≤ x from ha)⟩
      | inf t =>
          obtain rfl : t = false := hb
          exact ⟨rfl, Or.inr rfl⟩
      | nan => exact absurd hb (not_le_nan _)

theorem le_inf {a : ExtFloat} (h : fin 0 ≤ a) : a ≤ inf false := by
  cases a with
  | fin x => exact rfl
  | inf s => exact Or.inr rfl
  | nan => exact absurd h (not_le_nan _)

/-- Sums of values that are not negative are in the order of their terms. -/
theorem add_le_add {a a' b b' : ExtFloat} (ha₀ : fin 0 ≤ a) (hb₀ : fin 0 ≤ b) (ha : a ≤ a') (hb : b ≤ b') :
    a + b ≤ a' + b' := by
  have hsum : a + b ≤ inf false := le_inf (le_trans ha₀ (le_add ha₀ hb₀).1)
  cases a' with
  | nan => exact absurd ha (not_le_nan _)
  | inf s =>
      obtain rfl : s = false := le_trans ha₀ ha
      cases b' with
      | fin y => exact hsum
      | inf t =>
          obtain rfl : t = false := le_trans hb₀ hb
          exact hsum
      | nan => exact absurd hb (not_le_nan _)
  | fin x' =>
      cases b' with
      | fin y' =>
          obtain ⟨x, rfl, -, hx⟩ := exists_fin ha₀ ha
          obtain ⟨y, rfl, -, hy⟩ := exists_fin hb₀ hb
          show x + y ≤ x' + y'
          gcongr
      | inf t =>
          obtain rfl : t = false := le_trans hb₀ hb
          exact hsum
      | nan => exact absurd hb (not_le_nan _)

/-- Anything over zero is no number. -/
theorem div_zero_eq (a : ExtFloat) : a / fin 0 = nan ∨ ∃ s, a / fin 0 = inf s := by
  cases a with
  | fin x =>
      by_cases hx : x = 0
      · exact Or.inl (show div (fin x) (fin 0) = nan by simp [div, hx])
      · exact Or.inr ⟨decide (x < 0), show div (fin x) (fin 0) = _ by simp [div, hx]⟩
  | inf s => exact Or.inr ⟨_, rfl⟩
  | nan => exact Or.inl rfl

theorem add_inf_ne (s : Bool) : fin x + inf s ≠ fin y := ExtFloat.noConfusion

/-- Only zero times a number other than zero is zero. -/
theorem mul_fin_eq_zero {a : ExtFloat} (hy : y ≠ 0) (h : fin 0 + a * fin y = fin 0) : a = fin 0 := by
  cases a with
  | fin x =>
      rw [fin_mul, fin_add, zero_add, ExtFloat.fin.injEq] at h
      rw [(mul_eq_zero.mp h).resolve_right hy]
  | inf s =>
      have hmul : inf s * fin y = inf (s != decide (y < 0)) := if_neg hy
      rw [hmul] at h
      exact absurd h (add_inf_ne _)
  | nan =>
      have hmul : (nan : ExtFloat) * fin y = nan := rfl
      rw [hmul, add_nan] at h
      exact ExtFloat.noConfusion h

/-! ## Single precision -/

/-- The value of a `float` with the bits `b`: a sign, eight bits of exponent, 23 bits of fraction. -/
def ofBits (b : ℕ) : ExtFloat :=
  let e : ℕ := b / 2 ^ 23 % 2 ^ 8
  let m : ℕ := b % 2 ^ 23
  if e = 255 then (if m = 0 then inf (decide (b / 2 ^ 31 % 2 = 1)) else nan)
  else
    let magnitude : ℚ := if e = 0 then m * 2 ^ (-149 : ℤ) else (2 ^ 23 + m) * 2 ^ ((e : ℤ) - 150)
    CFloat.ofRat (if b / 2 ^ 31 % 2 = 1 then -magnitude else magnitude)

/-- The zeros are the bits of a sign. -/
theorem ofBits_eq_zero_iff (b : ℕ) : ofBits b = fin 0 ↔ b % 2 ^ 31 = 0 := by
  have hsplit : b % 2 ^ 31 = 0 ↔ b / 2 ^ 23 % 2 ^ 8 = 0 ∧ b % 2 ^ 23 = 0 := by omega
  have hpow : ∀ k : ℤ, (2 : ℚ) ^ k ≠ 0 := fun k => zpow_ne_zero k two_ne_zero
  rw [hsplit]
  unfold ofBits
  simp only
  generalize b / 2 ^ 23 % 2 ^ 8 = e
  generalize b % 2 ^ 23 = m
  by_cases he : e = 255
  · rw [if_pos he]
    refine iff_of_false ?_ fun h => by omega
    split_ifs <;> exact not_false
  · have hsign : ∀ (p : Prop) [Decidable p] (x : ℚ), (if p then -x else x) = 0 ↔ x = 0 := by
      intro p _ x
      split_ifs
      · exact neg_eq_zero
      · exact Iff.rfl
    rw [if_neg he, ofRat_eq, ExtFloat.fin.injEq, Rat.cast_eq_zero, hsign]
    split_ifs with hzero
    · rw [mul_eq_zero, or_iff_left (hpow _), Nat.cast_eq_zero]
      exact (and_iff_right hzero).symm
    · have hpos : (2 : ℚ) ^ 23 + m ≠ 0 := by positivity
      exact iff_of_false (mul_ne_zero hpos (hpow _)) fun h => hzero h.1

end

end ExtFloat
