import AudioProcess.Lib.Rounding
import Mathlib.Data.Int.Log

/-!
# Single precision

`binary32` rounds to the nearest `float`, to the one with the even significand of two: 24 bits of precision, units in
the last place down to `2 ^ -149`, infinity from `2 ^ 128` on.

* `nearestInt`: the nearest integer; `magnitude`: a number that is not negative, rounded to its units;
* **`magnitude_of_format`**: a significand of at most 24 bits stays; `magnitude_mono`, `abs_magnitude_sub_le`,
  `magnitude_gap`;
* `binary32`.
-/

namespace Binary32

open ExtFloat

/-! ## The nearest integer -/

/-- The integer nearest to `x`, the even one of two. -/
noncomputable def nearestInt (x : ℝ) : ℤ :=
  if Int.fract x < 1 - Int.fract x then ⌊x⌋
  else if 1 - Int.fract x < Int.fract x then ⌊x⌋ + 1
  else if Even ⌊x⌋ then ⌊x⌋ else ⌊x⌋ + 1

theorem nearestInt_intCast (n : ℤ) : nearestInt n = n := by
  unfold nearestInt
  rw [Int.fract_intCast, if_pos (by norm_num), Int.floor_intCast]

theorem floor_le_nearestInt (x : ℝ) : ⌊x⌋ ≤ nearestInt x ∧ nearestInt x ≤ ⌊x⌋ + 1 := by
  unfold nearestInt
  split_ifs <;> omega

theorem nearestInt_mono {x y : ℝ} (h : x ≤ y) : nearestInt x ≤ nearestInt y := by
  rcases (Int.floor_le_floor h).lt_or_eq with hlt | heq
  · have hx := (floor_le_nearestInt x).2
    have hy := (floor_le_nearestInt y).1
    omega
  · have hfract : Int.fract x ≤ Int.fract y := by
      have hx := Int.floor_add_fract x
      have hy := Int.floor_add_fract y
      rw [heq] at hx
      linarith
    unfold nearestInt
    rw [heq]
    split_ifs <;> first | omega | exact absurd hfract (by linarith)

theorem abs_nearestInt_sub_le (x : ℝ) : |(nearestInt x : ℝ) - x| ≤ 1 / 2 := by
  have hx := Int.floor_add_fract x
  have h₀ := Int.fract_nonneg x
  have h₁ := Int.fract_lt_one x
  unfold nearestInt
  rw [abs_le]
  split_ifs <;> push_cast <;> constructor <;> linarith

/-! ## Units in the last place -/

/-- The exponent of the unit in the last place of `x`. -/
noncomputable def exponent (x : ℝ) : ℤ := max (Int.log 2 x - 23) (-149)

/-- `x`, not negative, rounded to its units. -/
noncomputable def magnitude (x : ℝ) : ℝ := nearestInt (x / (2 : ℕ) ^ exponent x) * (2 : ℕ) ^ exponent x

variable {x y : ℝ} {n : ℕ} {e : ℤ}

theorem magnitude_eq (x : ℝ) : magnitude x = nearestInt (x / 2 ^ exponent x) * 2 ^ exponent x := by
  rw [magnitude, Nat.cast_ofNat]

theorem lt_two_zpow (x : ℝ) : x < 2 ^ (exponent x + 24) := by
  have h := Int.lt_zpow_succ_log_self one_lt_two x
  rw [Nat.cast_ofNat] at h
  refine h.trans_le (zpow_le_zpow_right₀ one_le_two ?_)
  unfold exponent
  omega

theorem two_zpow_le (hx : 0 < x) (h : -149 < exponent x) : (2 : ℝ) ^ (exponent x + 23) ≤ x := by
  have hlog := Int.zpow_log_le_self one_lt_two hx
  rw [Nat.cast_ofNat] at hlog
  refine (zpow_le_zpow_right₀ one_le_two ?_).trans hlog
  unfold exponent at h ⊢
  omega

theorem exponent_le (hx : 0 < x) (he : -149 ≤ e) (h : x < 2 ^ (e + 24)) : exponent x ≤ e := by
  have hlog := (Int.lt_zpow_iff_log_lt one_lt_two hx).mp (by rwa [Nat.cast_ofNat])
  unfold exponent
  omega

theorem exponent_mono (hx : 0 < x) (h : x ≤ y) : exponent x ≤ exponent y :=
  max_le_max (sub_le_sub_right (Int.log_mono_right hx h) _) le_rfl

/-- A multiple of its unit stays. -/
theorem magnitude_of_multiple {m : ℤ} (h : x = m * 2 ^ exponent x) : magnitude x = x := by
  have hpos : (2 : ℝ) ^ exponent x ≠ 0 := zpow_ne_zero _ two_ne_zero
  rw [magnitude_eq, show x / 2 ^ exponent x = m from (div_eq_iff hpos).mpr h, nearestInt_intCast, ← h]

theorem magnitude_of_lt (hn : n < 2 ^ 24) (he : -149 ≤ e) : magnitude (n * 2 ^ e) = n * 2 ^ e := by
  rcases Nat.eq_zero_or_pos n with rfl | hpos
  · refine magnitude_of_multiple (m := 0) ?_
    simp
  · have hx : (0 : ℝ) < n * 2 ^ e := by positivity
    have hle : exponent (n * 2 ^ e) ≤ e := by
      refine exponent_le hx he ?_
      rw [add_comm, zpow_add₀ two_ne_zero]
      refine mul_lt_mul_of_pos_right ?_ (by positivity)
      exact_mod_cast hn
    obtain ⟨k, hk⟩ := Int.eq_ofNat_of_zero_le (sub_nonneg.mpr hle)
    refine magnitude_of_multiple (m := n * 2 ^ k) ?_
    have hpow : (2 : ℝ) ^ e = 2 ^ k * 2 ^ exponent ((n : ℝ) * 2 ^ e) := by
      rw [← zpow_natCast, ← zpow_add₀ two_ne_zero]
      congr 1
      omega
    push_cast
    rw [mul_assoc, ← hpow]

/-- **A significand of at most 24 bits stays.** -/
theorem magnitude_of_format (hn : n ≤ 2 ^ 24) (he : -149 ≤ e) : magnitude (n * 2 ^ e) = n * 2 ^ e := by
  rcases hn.lt_or_eq with hlt | rfl
  · exact magnitude_of_lt hlt he
  · have h : ((2 ^ 24 : ℕ) : ℝ) * 2 ^ e = (2 ^ 23 : ℕ) * 2 ^ (e + 1) := by
      rw [zpow_add₀ two_ne_zero]
      push_cast
      ring
    rw [h]
    exact magnitude_of_lt (by norm_num) (by omega)

theorem magnitude_zero : magnitude 0 = 0 := by
  have h := magnitude_of_format (n := 0) (e := 0) (by norm_num) (by norm_num)
  simpa using h

theorem magnitude_two_zpow (he : -149 ≤ e) : magnitude (2 ^ e) = 2 ^ e := by
  have h := magnitude_of_format (n := 1) (by norm_num) he
  simpa using h

theorem magnitude_nonneg (hx : 0 ≤ x) : 0 ≤ magnitude x := by
  have h : (0 : ℤ) ≤ nearestInt (x / 2 ^ exponent x) := by
    have := nearestInt_mono (div_nonneg hx (by positivity) : 0 ≤ x / 2 ^ exponent x)
    rwa [← Int.cast_zero, nearestInt_intCast] at this
  rw [magnitude_eq]
  exact mul_nonneg (by exact_mod_cast h) (by positivity)

/-- The significand of a rounded number has at most 24 bits. -/
theorem exists_format (hx : 0 ≤ x) : ∃ n ≤ 2 ^ 24, magnitude x = (n : ℕ) * 2 ^ exponent x := by
  have hpos : (0 : ℝ) < 2 ^ exponent x := by positivity
  have h₀ := nearestInt_mono (div_nonneg hx hpos.le)
  have h₁ : x / 2 ^ exponent x ≤ ((2 ^ 24 : ℤ) : ℝ) := by
    rw [div_le_iff₀ hpos]
    have h := (lt_two_zpow x).le
    rw [zpow_add₀ two_ne_zero] at h
    push_cast
    linarith
  have h₂ := nearestInt_mono h₁
  rw [nearestInt_intCast] at h₂
  rw [← Int.cast_zero, nearestInt_intCast] at h₀
  obtain ⟨n, hn⟩ := Int.eq_ofNat_of_zero_le h₀
  refine ⟨n, by omega, ?_⟩
  rw [magnitude_eq, hn, Int.cast_natCast]

theorem neg_149_le_exponent (x : ℝ) : -149 ≤ exponent x := le_max_right _ _

/-- **Rounding keeps the order.** -/
theorem magnitude_mono (hx : 0 ≤ x) (h : x ≤ y) : magnitude x ≤ magnitude y := by
  rcases hx.eq_or_lt with rfl | hpos
  · rw [magnitude_zero]
    exact magnitude_nonneg h
  rcases (exponent_mono hpos h).lt_or_eq with hlt | heq
  · -- a power of two lies between
    have hbetween : (2 : ℝ) ^ (exponent x + 24) ≤ 2 ^ (exponent y + 23) :=
      zpow_le_zpow_right₀ one_le_two (by omega)
    obtain ⟨n, hn, hxn⟩ := exists_format hx
    have hy := two_zpow_le (hpos.trans_le h) ((neg_149_le_exponent x).trans_lt hlt)
    have hlow : (2 : ℝ) ^ (exponent y + 23) ≤ magnitude y := by
      have hdiv : ((2 ^ 23 : ℤ) : ℝ) ≤ y / 2 ^ exponent y := by
        rw [le_div_iff₀ (by positivity)]
        rw [zpow_add₀ two_ne_zero] at hy
        push_cast
        linarith
      have hnear := nearestInt_mono hdiv
      rw [nearestInt_intCast] at hnear
      rw [magnitude_eq, add_comm, zpow_add₀ two_ne_zero]
      refine mul_le_mul_of_nonneg_right ?_ (by positivity)
      exact_mod_cast hnear
    have hhigh : magnitude x ≤ 2 ^ (exponent x + 24) := by
      rw [hxn, add_comm, zpow_add₀ two_ne_zero]
      refine mul_le_mul_of_nonneg_right ?_ (by positivity)
      exact_mod_cast hn
    linarith
  · rw [magnitude_eq, magnitude_eq, heq]
    refine mul_le_mul_of_nonneg_right ?_ (by positivity)
    exact_mod_cast nearestInt_mono (div_le_div_of_nonneg_right h (by positivity))

/-- **The error** is half a unit. -/
theorem abs_magnitude_sub_le (hx : 0 ≤ x) : |magnitude x - x| ≤ x / 2 ^ 24 + 1 / 2 ^ 150 := by
  rcases hx.eq_or_lt with rfl | hx
  · rw [magnitude_zero, sub_zero, abs_zero]
    positivity
  have hpos : (0 : ℝ) < 2 ^ exponent x := by positivity
  have hhalf : |magnitude x - x| ≤ 1 / 2 * 2 ^ exponent x := by
    have h := abs_nearestInt_sub_le (x / 2 ^ exponent x)
    calc |magnitude x - x| = |(nearestInt (x / 2 ^ exponent x) - x / 2 ^ exponent x) * 2 ^ exponent x| := by
          rw [sub_mul, div_mul_cancel₀ x hpos.ne', magnitude_eq]
      _ = |nearestInt (x / 2 ^ exponent x) - x / 2 ^ exponent x| * 2 ^ exponent x := by
          rw [abs_mul, abs_of_pos hpos]
      _ ≤ 1 / 2 * 2 ^ exponent x := mul_le_mul_of_nonneg_right h hpos.le
  refine hhalf.trans ?_
  rcases (neg_149_le_exponent x).eq_or_lt with heq | hlt
  · rw [← heq]
    norm_num
    positivity
  · have h := two_zpow_le hx hlt
    rw [zpow_add₀ two_ne_zero] at h
    norm_num at h ⊢
    linarith

/-- Of two multiples of one unit, the larger one is above the smaller one by a unit. -/
theorem le_of_multiples {m n : ℕ} (h : (m : ℝ) * 2 ^ e < n * 2 ^ e) (hn : n ≤ 2 ^ 24) :
    (m : ℝ) * 2 ^ e ≤ (1 - 1 / 2 ^ 24) * (n * 2 ^ e) := by
  have hpos : (0 : ℝ) < 2 ^ e := by positivity
  have hlt : m + 1 ≤ n := Nat.succ_le_of_lt (by exact_mod_cast (mul_lt_mul_iff_left₀ hpos).mp h)
  have hmn : (m : ℝ) + 1 ≤ n := by exact_mod_cast hlt
  have hunit : (n : ℝ) / 2 ^ 24 ≤ 1 := (div_le_one (by positivity)).mpr (by exact_mod_cast hn)
  have hm : (m : ℝ) ≤ (1 - 1 / 2 ^ 24) * n := by
    rw [sub_mul, one_mul, one_div_mul_eq_div]
    linarith
  rw [← mul_assoc]
  exact mul_le_mul_of_nonneg_right hm hpos.le

/-- **Between two numbers there is a unit.** -/
theorem magnitude_gap (hx : magnitude x = x) (hy : magnitude y = y) (hx₀ : 0 ≤ x) (h : x < y) :
    x ≤ (1 - 1 / 2 ^ 24) * y := by
  have hy₀ : 0 < y := hx₀.trans_lt h
  rcases hx₀.eq_or_lt with rfl | hpos
  · exact mul_nonneg (by norm_num) hy₀.le
  obtain ⟨m, hm, hxm⟩ := exists_format hx₀
  obtain ⟨n, hn, hyn⟩ := exists_format hy₀.le
  rw [hx] at hxm
  rw [hy] at hyn
  rcases (exponent_mono hpos h.le).lt_or_eq with hlt | heq
  · -- a power of two lies between
    have hbetween : (2 : ℝ) ^ (exponent x + 24) ≤ 2 ^ (exponent y + 23) :=
      zpow_le_zpow_right₀ one_le_two (by omega)
    have htwo : (2 : ℝ) ^ (exponent x + 24) = (2 ^ 24 : ℕ) * 2 ^ exponent x := by
      rw [add_comm, zpow_add₀ two_ne_zero]
      norm_cast
    have hunit := le_of_multiples (m := m) (n := 2 ^ 24) (e := exponent x) (by
      rw [← hxm, ← htwo]
      exact lt_two_zpow x) le_rfl
    rw [← hxm, ← htwo] at hunit
    have hle := two_zpow_le hy₀ ((neg_149_le_exponent x).trans_lt hlt)
    exact hunit.trans (mul_le_mul_of_nonneg_left (hbetween.trans hle) (by norm_num))
  · rw [hxm, hyn, ← heq] at h ⊢
    exact le_of_multiples h hn

/-! ## The values -/

/-- The value of a sign and a rounded magnitude. -/
noncomputable def signed (neg : Bool) (m : ℝ) : ExtFloat :=
  if (2 ^ 128 : ℕ) ≤ m then inf neg else fin (bif neg then -m else m)

/-- To the nearest `float`. -/
noncomputable def round (x : ℝ) : ExtFloat := signed (decide (x < 0)) (magnitude |x|)

theorem round_of_nonneg (hx : 0 ≤ x) : round x = signed false (magnitude x) := by
  rw [round, abs_of_nonneg hx, decide_eq_false (not_lt.mpr hx)]

theorem round_of_neg (hx : x < 0) : round x = signed true (magnitude (-x)) := by
  rw [round, abs_of_neg hx, decide_eq_true hx]

theorem signed_eq (neg : Bool) (m : ℝ) :
    signed neg m = if 2 ^ 128 ≤ m then inf neg else fin (bif neg then -m else m) := by
  rw [signed, Nat.cast_pow, Nat.cast_ofNat]

theorem signed_zero (neg : Bool) : signed neg 0 = fin 0 := by
  rw [signed_eq, if_neg (by norm_num)]
  simp

theorem signed_of_lt {m : ℝ} (h : m < 2 ^ 128) (neg : Bool) : signed neg m = fin (bif neg then -m else m) := by
  rw [signed_eq, if_neg (not_le.mpr h)]

theorem lt_of_signed {neg : Bool} {m : ℝ} (h : signed neg m = fin y) : m < 2 ^ 128 ∧ (bif neg then -m else m) = y := by
  rw [signed_eq] at h
  split_ifs at h with hm
  exact ⟨not_le.mp hm, ExtFloat.fin.inj h⟩

theorem neg_signed (neg : Bool) (m : ℝ) : -signed neg m = signed (!neg) m := by
  rw [signed_eq, signed_eq]
  split_ifs with h
  · rfl
  · show fin (-(bif neg then -m else m)) = _
    cases neg <;> simp

theorem signed_mono {m m' : ℝ} (h : m ≤ m') : signed false m ≤ signed false m' ∧ signed true m' ≤ signed true m := by
  simp only [signed_eq]
  by_cases h₁ : 2 ^ 128 ≤ m
  · simp only [if_pos h₁, if_pos (h₁.trans h)]
    simp
  · simp only [if_neg h₁]
    split_ifs
    · simp
    · simpa using h

theorem round_neg (x : ℝ) : round (-x) = -round x := by
  rcases lt_trichotomy x 0 with hx | rfl | hx
  · rw [round_of_neg hx, round_of_nonneg (by linarith), neg_signed]
    rfl
  · rw [neg_zero, round_of_nonneg le_rfl, magnitude_zero, neg_signed, signed_zero, signed_zero]
  · rw [round_of_nonneg hx.le, round_of_neg (by linarith), neg_signed, neg_neg]
    rfl

theorem round_mono (h : x ≤ y) : round x ≤ round y := by
  rcases lt_or_ge x 0 with hx | hx
  · rcases lt_or_ge y 0 with hy | hy
    · rw [round_of_neg hx, round_of_neg hy]
      exact (signed_mono (magnitude_mono (by linarith) (by linarith))).2
    · rw [round_of_neg hx, round_of_nonneg hy]
      have h₁ := (signed_mono (magnitude_nonneg (by linarith : 0 ≤ -x))).2
      have h₂ := (signed_mono (magnitude_nonneg hy)).1
      rw [signed_zero] at h₁ h₂
      exact le_trans h₁ h₂
  · rw [round_of_nonneg hx, round_of_nonneg (hx.trans h)]
    exact (signed_mono (magnitude_mono hx h)).1

theorem magnitude_magnitude (hx : 0 ≤ x) : magnitude (magnitude x) = magnitude x := by
  obtain ⟨n, hn, h⟩ := exists_format hx
  rw [h]
  exact magnitude_of_format hn (neg_149_le_exponent x)

theorem round_idem (h : round x = fin y) : round y = fin y := by
  rcases lt_or_ge x 0 with hx | hx
  · rw [round_of_neg hx] at h
    obtain ⟨hlt, hy⟩ := lt_of_signed h
    have hm := magnitude_nonneg (neg_nonneg.mpr hx.le)
    rw [cond_true] at hy
    rw [← neg_neg y, round_neg, ← hy, neg_neg, round_of_nonneg hm, magnitude_magnitude (by linarith), signed_of_lt hlt]
    rfl
  · rw [round_of_nonneg hx] at h
    obtain ⟨hlt, hy⟩ := lt_of_signed h
    have hm := magnitude_nonneg hx
    rw [cond_false] at hy
    rw [← hy, round_of_nonneg hm, magnitude_magnitude hx, signed_of_lt hlt, cond_false]

theorem round_near_of_nonneg (h₀ : 0 ≤ x) (hx : x ≤ 2 ^ 128 - 2 ^ 104) :
    round x = fin (magnitude x) ∧ |magnitude x - x| ≤ x / 2 ^ 24 + 1 / 2 ^ 150 := by
  refine ⟨?_, abs_magnitude_sub_le h₀⟩
  have hmax := magnitude_of_format (n := 2 ^ 24 - 1) (e := 104) (by norm_num) (by norm_num)
  have h := magnitude_mono h₀ hx
  norm_num at hmax h
  rw [hmax] at h
  rw [round_of_nonneg h₀, signed_of_lt (by norm_num; linarith), cond_false]

theorem round_near (hx : |x| ≤ 2 ^ 128 - 2 ^ 104) : ∃ y, round x = fin y ∧ |y - x| ≤ |x| / 2 ^ 24 + 1 / 2 ^ 150 := by
  obtain ⟨h, herr⟩ := round_near_of_nonneg (abs_nonneg x) hx
  rcases abs_cases x with ⟨habs, -⟩ | ⟨habs, -⟩
  · rw [habs] at h herr ⊢
    exact ⟨_, h, herr⟩
  · refine ⟨-magnitude |x|, ?_, ?_⟩
    · have hneg := round_neg |x|
      rwa [h, habs, neg_neg, ← habs] at hneg
    · rw [← abs_neg, show -(-magnitude |x| - x) = magnitude |x| - |x| by rw [habs]; ring]
      exact herr

theorem round_zero : round 0 = fin 0 := by rw [round_of_nonneg le_rfl, magnitude_zero, signed_zero]

theorem round_one : round 1 = fin 1 := by
  have h := magnitude_two_zpow (e := 0) (by norm_num)
  rw [zpow_zero] at h
  rw [round_of_nonneg zero_le_one, h, signed_of_lt (by norm_num), cond_false]

theorem round_overflow (hx : 2 ^ 128 ≤ x) : round x = inf false := by
  have h := magnitude_mono (by positivity) hx
  have hpow := magnitude_two_zpow (e := 128) (by norm_num)
  norm_num at hpow h hx
  rw [hpow] at h
  rw [round_of_nonneg (by linarith), signed_eq, if_pos (by norm_num; exact h)]

theorem magnitude_eq_of_round (hx : 0 ≤ x) (h : round x = fin x) : magnitude x = x := by
  rw [round_of_nonneg hx] at h
  exact (lt_of_signed h).2

theorem round_gap (hx : round x = fin x) (hy : round y = fin y) (hx₀ : 0 ≤ x) (h : x < y) :
    x ≤ (1 - 1 / 2 ^ 24) * y :=
  magnitude_gap (magnitude_eq_of_round hx₀ hx) (magnitude_eq_of_round (hx₀.trans h.le) hy) hx₀ h
/-- Single precision, to the nearest. -/
noncomputable def binary32 : Rounding where
  round := round
  zero := round_zero
  one := round_one
  neg := round_neg
  mono _ _ := round_mono
  idem _ _ := round_idem
  near _ := round_near
  overflow _ := round_overflow
  gap _ _ := round_gap

end Binary32
