import AudioProcess.Lib.CFloat

/-!
# Exact halves

A floating-point format in which the halves of the integers up to `2^17` are numbers, and the operations on them
are exact, as they are in IEEE 754 single precision.

* `Half q`: `q` is such a number; `ExactHalves F`; the reals are an instance;
* `truncRat_intCast`: an integer is truncated to itself; `truncRat_add_half`, `truncRat_sub_half`: so is one moved
  away from zero by a half.
-/

namespace CFloat

/-- A half of an integer up to `2^17`. -/
def Half (q : ℚ) : Prop := ∃ z : ℤ, q = z / 2 ∧ |z| ≤ 2 ^ 17

theorem half_of_int {z : ℤ} (h : |z| ≤ 2 ^ 16) : Half z := by
  refine ⟨2 * z, ?_, ?_⟩
  · push_cast
    ring
  · rw [abs_mul]
    norm_num at h ⊢
    omega

theorem half_add_half {z : ℤ} (h : |2 * z + 1| ≤ 2 ^ 17) : Half (z + 0.5) := by
  refine ⟨2 * z + 1, ?_, h⟩
  push_cast
  ring

theorem half_sub_half {z : ℤ} (h : |2 * z - 1| ≤ 2 ^ 17) : Half (z - 0.5) := by
  refine ⟨2 * z - 1, ?_, h⟩
  push_cast
  ring

/-- Truncation toward zero. -/
def truncRat (q : ℚ) : ℤ := if 0 ≤ q then ⌊q⌋ else ⌈q⌉

/-- The halves are numbers of the format, and its operations on them are exact. -/
class ExactHalves (F : Type) [CFloat F] : Prop where
  lt_iff : ∀ {p q : ℚ}, Half p → Half q → ((ofRat p : F) < ofRat q ↔ p < q)
  le_iff : ∀ {p q : ℚ}, Half p → Half q → ((ofRat p : F) ≤ ofRat q ↔ p ≤ q)
  add : ∀ {p q : ℚ}, Half p → Half q → Half (p + q) → (ofRat p + ofRat q : F) = ofRat (p + q)
  sub : ∀ {p q : ℚ}, Half p → Half q → Half (p - q) → (ofRat p - ofRat q : F) = ofRat (p - q)
  trunc : ∀ {q : ℚ}, Half q → CFloat.trunc (ofRat q : F) = truncRat q

noncomputable instance : ExactHalves ℝ where
  lt_iff _ _ := Rat.cast_lt
  le_iff _ _ := Rat.cast_le
  add _ _ _ := (Rat.cast_add _ _).symm
  sub _ _ _ := (Rat.cast_sub _ _).symm
  trunc {q} _ := by
    unfold truncRat
    simp only [CFloat.trunc, ofRat_real, Rat.cast_nonneg, Rat.floor_cast, Rat.ceil_cast]

theorem truncRat_intCast (z : ℤ) : truncRat z = z := by
  unfold truncRat
  split_ifs
  · exact Int.floor_intCast z
  · exact Int.ceil_intCast z

theorem truncRat_add_half {z : ℤ} (h : 0 ≤ z) : truncRat (z + 0.5) = z := by
  have hpos : (0 : ℚ) ≤ z + 0.5 := by
    have : (0 : ℚ) ≤ z := by exact_mod_cast h
    linarith
  rw [truncRat, if_pos hpos, Int.floor_eq_iff]
  constructor <;> norm_num

theorem truncRat_sub_half {z : ℤ} (h : z ≤ 0) : truncRat (z - 0.5) = z := by
  have hneg : ¬ (0 : ℚ) ≤ z - 0.5 := by
    have : (z : ℚ) ≤ 0 := by exact_mod_cast h
    linarith
  rw [truncRat, if_neg hneg, Int.ceil_eq_iff]
  constructor <;> norm_num

end CFloat
