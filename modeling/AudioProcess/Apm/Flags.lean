import AudioProcess.Apm.Rows
import AudioProcess.Lib.Halves

/-!
# The samples behind the validity flags

One flag says that the integers of an `IFChannelBuffer` are up to date, another that its floats are, for all
channels at once. A conversion that is due for one channel is made for all of them.

* **`floatS16ToS16_shortToFloat`**: an integer comes back from a float;
* `floats`: the samples that `fbuf()` and `fbuf_const()` give; `Coherent`: the integers are the rounded floats;
* `ints_ibuf_with`, `floats_ibuf_with`, …: what each access leaves of the other channels.
-/

namespace AudioProcess

open CFloat

variable {F : Type} [CFloat F]

/-! ## Integers as floats -/

section Lossless

variable [ExactHalves F]

omit [CFloat F] [ExactHalves F] in
theorem abs_toInt_le (v : Int16) : |v.toInt| ≤ 2 ^ 15 := by
  have hlo := v.le_toInt
  have hhi := v.toInt_lt
  rw [abs_le]
  omega

/-- **An integer comes back from a float.** -/
theorem floatS16ToS16_shortToFloat (v : Int16) : floatS16ToS16 (shortToFloat v : F) = v := by
  have hlo := v.le_toInt
  have hhi := v.toInt_lt
  have hz : Half v.toInt := half_of_int ((abs_toInt_le v).trans (by norm_num))
  have hzero : Half 0 := ⟨0, by norm_num, by norm_num⟩
  have hhalf : Half 0.5 := ⟨1, by norm_num, by norm_num⟩
  have hmax : Half 32767 := ⟨65534, by norm_num, by norm_num⟩
  have hmin : Half (-32768) := ⟨-65536, by norm_num, by norm_num⟩
  have hupper : Half (32767 - 0.5) := ⟨65533, by norm_num, by norm_num⟩
  have hlower : Half (-32768 + 0.5) := ⟨-65535, by norm_num, by norm_num⟩
  unfold floatS16ToS16 shortToFloat
  split_ifs with hpos hbig hsmall
  · rw [ge_iff_le, ExactHalves.sub hmax hhalf hupper, ExactHalves.le_iff hupper hz] at hbig
    have hv : 32766 < v.toInt := by
      have hlt : ((32766 : ℤ) : ℚ) < v.toInt := by
        push_cast
        linarith
      exact_mod_cast hlt
    apply Int16.toInt_inj.mp
    show (32767 : ℤ) = v.toInt
    omega
  · have hv : 0 < v.toInt := by exact_mod_cast (ExactHalves.lt_iff hzero hz).mp hpos
    have hsum : Half (v.toInt + 0.5) := half_add_half (by rw [abs_le]; omega)
    rw [ExactHalves.add hz hhalf hsum, ExactHalves.trunc hsum, truncRat_add_half hv.le, Int16.ofInt_toInt]
  · rw [ExactHalves.add hmin hhalf hlower, ExactHalves.le_iff hz hlower] at hsmall
    have hv : v.toInt < -32767 := by
      have hlt : (v.toInt : ℚ) < ((-32767 : ℤ) : ℚ) := by
        push_cast
        linarith
      exact_mod_cast hlt
    apply Int16.toInt_inj.mp
    show (-32768 : ℤ) = v.toInt
    omega
  · have hv : v.toInt ≤ 0 := by
      by_contra hlt
      exact hpos ((ExactHalves.lt_iff hzero hz).mpr (by exact_mod_cast not_le.mp hlt))
    have hdiff : Half (v.toInt - 0.5) := half_sub_half (by rw [abs_le]; omega)
    rw [ExactHalves.sub hz hhalf hdiff, ExactHalves.trunc hdiff, truncRat_sub_half hv, Int16.ofInt_toInt]

/-- So does a row of them. -/
theorem round_row (row : ℕ → Int16) : (fun j => floatS16ToS16 (shortToFloat (row j) : F)) = row :=
  funext fun j => floatS16ToS16_shortToFloat (row j)

end Lossless

/-! ## Accesses -/

namespace IFChannelBuffer

/-- The samples as floats. -/
def floats (s : IFChannelBuffer F) : ℕ → ℕ → F := s.fbufConst.fbufData

/-- One of the flags is set, and the integers are the rounded floats. -/
structure Coherent (s : IFChannelBuffer F) : Prop where
  valid : s.ivalid = true ∨ s.fvalid = true
  ints : s.ints = fun ch j => floatS16ToS16 (s.floats ch j)

variable {s : IFChannelBuffer F}

theorem floats_of_fvalid (h : s.fvalid = true) : s.floats = s.fbufData := by
  unfold floats fbufConst refreshF
  rw [if_pos h]

theorem floats_of_not_fvalid (h : s.fvalid = false) : s.floats = fun ch j => shortToFloat (s.ibufData ch j) := by
  unfold floats fbufConst refreshF
  rw [if_neg (by rw [h]; exact Bool.false_ne_true)]

theorem ints_of_not_ivalid (h : s.ivalid = false) : s.ints = fun ch j => floatS16ToS16 (s.fbufData ch j) := by
  unfold ints ibufConst refreshI
  rw [if_neg (by rw [h]; exact Bool.false_ne_true)]

/-! ### `ibuf()` -/

/-- Integers that are written through `ibuf()` are the floats from then on. -/
@[simp] theorem floats_ibuf_with (x : ℕ → ℕ → Int16) :
    floats { s.ibuf with ibufData := x } = fun ch j => shortToFloat (x ch j) := floats_of_not_fvalid rfl

theorem coherent_ibuf_with [ExactHalves F] (x : ℕ → ℕ → Int16) : Coherent { s.ibuf with ibufData := x } where
  valid := Or.inl s.ivalid_ibuf
  ints := by
    rw [ints_ibuf_with, floats_ibuf_with]
    exact funext fun ch => (round_row (F := F) (x ch)).symm

/-! ### `fbuf()` -/

@[simp] theorem fbufData_fbuf : s.fbuf.fbufData = s.floats := rfl

theorem fvalid_fbufConst : s.fbufConst.fvalid = true := by
  unfold fbufConst refreshF
  split_ifs with h
  · exact h
  · rfl

theorem fvalid_fbuf : s.fbuf.fvalid = true := s.fvalid_fbufConst

@[simp] theorem floats_fbufConst : s.fbufConst.floats = s.floats := floats_of_fvalid s.fvalid_fbufConst

/-- Floats that are written through `fbuf()`. -/
@[simp] theorem floats_fbuf_with (x : ℕ → ℕ → F) : floats { s.fbuf with fbufData := x } = x :=
  floats_of_fvalid s.fvalid_fbuf

@[simp] theorem ints_fbuf_with (x : ℕ → ℕ → F) :
    ints { s.fbuf with fbufData := x } = fun ch j => floatS16ToS16 (x ch j) := ints_of_not_ivalid rfl

theorem coherent_fbuf_with (x : ℕ → ℕ → F) : Coherent { s.fbuf with fbufData := x } where
  valid := Or.inr s.fvalid_fbuf
  ints := by rw [ints_fbuf_with, floats_fbuf_with]

end IFChannelBuffer

end AudioProcess
