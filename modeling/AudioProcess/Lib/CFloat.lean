import Mathlib.Analysis.SpecialFunctions.Trigonometric.Basic
import Mathlib.Analysis.Real.Sqrt

/-!
# Floating-point arithmetic as an interface

`CFloat F`: the operations C code uses on `float` and `double` values, over any type `F`: a program
written over it can be read in exact real arithmetic (the instance for `ℝ`), or in any other. `CTrig F` has the
sine, too.
-/

/-- The floating-point operations of C and `math.h`. -/
class CFloat (F : Type) extends Add F, Sub F, Mul F, Div F, Neg F, LT F, LE F where
  /-- A literal, or an integer converted to floating point. -/
  ofRat : ℚ → F
  sqrt : F → F
  cos : F → F
  pi : F
  /-- Conversion to an integer, toward zero. -/
  trunc : F → ℤ
  decLt : ∀ a b : F, Decidable (a < b)
  decLe : ∀ a b : F, Decidable (a ≤ b)

namespace CFloat

variable {F : Type} [CFloat F]

instance (a b : F) : Decidable (a < b) := decLt a b
instance (a b : F) : Decidable (a ≤ b) := decLe a b

/-- An `int` in a floating-point expression. -/
def ofNat (n : ℕ) : F := ofRat n

/-- The value of a comparison in a floating-point expression. -/
def ofBool (p : Prop) [Decidable p] : F := if p then ofRat 1 else ofRat 0

noncomputable instance : CFloat ℝ where
  ofRat q := q
  sqrt := Real.sqrt
  cos := Real.cos
  pi := Real.pi
  trunc x := if 0 ≤ x then ⌊x⌋ else ⌈x⌉
  decLt _ _ := inferInstance
  decLe _ _ := inferInstance

@[simp] theorem ofRat_real (q : ℚ) : (ofRat q : ℝ) = q := rfl

@[simp] theorem cos_real (x : ℝ) : cos x = Real.cos x := rfl

@[simp] theorem pi_real : (pi : ℝ) = Real.pi := rfl

@[simp] theorem ofNat_real (n : ℕ) : (ofNat n : ℝ) = n := by simp [ofNat]

end CFloat

/-- `CFloat` with the sine. -/
class CTrig (F : Type) extends CFloat F where
  sin : F → F

noncomputable instance : CTrig ℝ where
  sin := Real.sin

@[simp] theorem CTrig.sin_real (x : ℝ) : sin x = Real.sin x := rfl
