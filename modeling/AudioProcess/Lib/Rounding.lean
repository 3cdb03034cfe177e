import AudioProcess.Lib.ExtFloat
import AudioProcess.Lib.Loop
import Mathlib.Tactic.Linarith
import Mathlib.Tactic.Positivity

/-!
# Floating point with rounding

`R.Float` are the floating-point values that the rounding `R` leaves as they are. Each operation is the one of
`ExtFloat`, on the exact values, and its result is rounded; so a product can become zero and a quotient infinite.

* `Rounding`: what the roundings to single precision have in common; `fix`, **`fix_mono`**; `Rounding.Float`;
* `le_val_add`, `forLoop_forLoop_add_le`: a rounded sum is at least each of its parts;
* `Below`: a sum bounded by another, term by term; **`Below.forLoop`**, `Below.bound`;
* `Approx`: a positive number up to relative errors; `Approx.mul`, `Approx.div`, `Approx.sqrt`, `Approx.bounds`;
* `Near`: a number up to an absolute error; `Near.mul`, `Near.sub`.
-/

/-- A rounding of real numbers to floating-point values with the precision and the exponents of a `float`. -/
structure Rounding where
  round : ℝ → ExtFloat
  zero : round 0 = .fin 0
  one : round 1 = .fin 1
  neg : ∀ x, round (-x) = -round x
  mono : ∀ x y, x ≤ y → round x ≤ round y
  idem : ∀ x y, round x = .fin y → round y = .fin y
  /-- A number that is not too large stays one, and moves by half a unit in its last place at most. -/
  near : ∀ x, |x| ≤ 2 ^ 128 - 2 ^ 104 → ∃ y, round x = .fin y ∧ |y - x| ≤ |x| / 2 ^ 24 + 1 / 2 ^ 150
  overflow : ∀ x, 2 ^ 128 ≤ x → round x = .inf false
  /-- Two values that differ do so by a unit in the last place. -/
  gap : ∀ x y, round x = .fin x → round y = .fin y → 0 ≤ x → x < y → x ≤ (1 - 1 / 2 ^ 24) * y

namespace Rounding

open ExtFloat CLoop

noncomputable section

open Classical

variable (R : Rounding)

/-- The rounded value. -/
def fix : ExtFloat → ExtFloat
  | fin x => R.round x
  | inf s => inf s
  | nan => nan

@[simp] theorem fix_fin (x : ℝ) : R.fix (fin x) = R.round x := rfl
@[simp] theorem fix_inf (s : Bool) : R.fix (inf s) = inf s := rfl
@[simp] theorem fix_nan : R.fix nan = nan := rfl

theorem fix_fix (a : ExtFloat) : R.fix (R.fix a) = R.fix a := by
  cases a with
  | fin x =>
      cases h : R.round x with
      | fin y => rw [fix_fin, h, fix_fin, R.idem x y h]
      | inf s => rw [fix_fin, h, fix_inf]
      | nan => rw [fix_fin, h, fix_nan]
  | inf s => rfl
  | nan => rfl

theorem round_ne_nan (x : ℝ) : R.round x ≠ nan := fun h => not_nan_le (R.round x) (by
  have := R.mono x x le_rfl
  rwa [h] at this ⊢)

/-- **Rounding keeps the order.** -/
theorem fix_mono {a b : ExtFloat} (h : a ≤ b) : R.fix a ≤ R.fix b := by
  cases a with
  | nan => exact absurd h (not_nan_le b)
  | fin x =>
      cases b with
      | fin y => exact R.mono x y h
      | inf t =>
          obtain rfl : t = false := h
          show R.round x ≤ inf false
          cases hx : R.round x with
          | fin y => exact rfl
          | inf s => exact Or.inr rfl
          | nan => exact absurd hx (R.round_ne_nan x)
      | nan => exact absurd h (not_le_nan _)
  | inf s =>
      cases b with
      | fin y =>
          obtain rfl : s = true := h
          show inf true ≤ R.round y
          cases hy : R.round y with
          | fin x => exact rfl
          | inf t => exact Or.inl rfl
          | nan => exact absurd hy (R.round_ne_nan y)
      | inf t => exact h
      | nan => exact absurd h (not_le_nan _)

/-! ## The values -/

/-- A value that `R` leaves as it is. -/
@[ext] structure Float where
  val : ExtFloat
  fixed : R.fix val = val

/-- The rounded value of `a`. -/
def toFloat (a : ExtFloat) : R.Float := ⟨R.fix a, R.fix_fix a⟩

instance : CFloat R.Float where
  add a b := R.toFloat (a.val + b.val)
  sub a b := R.toFloat (a.val - b.val)
  mul a b := R.toFloat (a.val * b.val)
  div a b := R.toFloat (a.val / b.val)
  neg a := R.toFloat (-a.val)
  lt a b := a.val < b.val
  le a b := a.val ≤ b.val
  ofRat q := R.toFloat (CFloat.ofRat q)
  sqrt a := R.toFloat (CFloat.sqrt a.val)
  cos a := R.toFloat (CFloat.cos a.val)
  pi := R.toFloat CFloat.pi
  trunc a := CFloat.trunc a.val
  decLt _ _ := inferInstance
  decLe _ _ := inferInstance

end

open CFloat

namespace Float

variable {R : Rounding} {a b : R.Float} {x y : ℝ}

@[simp] theorem val_add (a b : R.Float) : (a + b).val = R.fix (a.val + b.val) := rfl
@[simp] theorem val_sub (a b : R.Float) : (a - b).val = R.fix (a.val - b.val) := rfl
@[simp] theorem val_mul (a b : R.Float) : (a * b).val = R.fix (a.val * b.val) := rfl
@[simp] theorem val_div (a b : R.Float) : (a / b).val = R.fix (a.val / b.val) := rfl
@[simp] theorem val_sqrt (a : R.Float) : (sqrt a).val = R.fix (sqrt a.val) := rfl
@[simp] theorem val_ofRat (q : ℚ) : (ofRat q : R.Float).val = R.round q := rfl
theorem lt_iff (a b : R.Float) : a < b ↔ a.val < b.val := Iff.rfl

theorem val_zero : (ofRat 0 : R.Float).val = fin 0 := by
  rw [val_ofRat, Rat.cast_zero, R.zero]

theorem val_one : (ofRat 1 : R.Float).val = fin 1 := by
  rw [val_ofRat, Rat.cast_one, R.one]

theorem round_eq (h : a.val = fin x) : R.round x = fin x := by
  have hfixed := a.fixed
  rwa [h] at hfixed

/-! ## Sums -/

/-- **A rounded sum** of values that are not negative is at least each of them. -/
theorem le_val_add (ha : fin 0 ≤ a.val) (hb : fin 0 ≤ b.val) : a.val ≤ (a + b).val ∧ b.val ≤ (a + b).val := by
  obtain ⟨h₁, h₂⟩ := ExtFloat.le_add ha hb
  refine ⟨?_, ?_⟩
  · rw [← a.fixed]
    exact R.fix_mono h₁
  · rw [← b.fixed]
    exact R.fix_mono h₂

theorem add_of_zero (hb : b.val = fin 0) : a + b = a := by
  ext
  rw [val_add, hb, add_fin_zero, a.fixed]

theorem sq_nonneg (h : a.val = fin x) : fin 0 ≤ (a * a).val := by
  rw [val_mul, h, fin_mul, fix_fin, ← R.zero]
  exact R.mono 0 _ (mul_self_nonneg x)

/-- **A loop that adds up** values that are not negative. -/
theorem forLoop_add_le {l u : ℕ} {t : ℕ → R.Float} (ht : ∀ i, l ≤ i → i < u → fin 0 ≤ (t i).val) {s : R.Float}
    (hs : fin 0 ≤ s.val) : s.val ≤ (forLoop l u (fun i s => s + t i) s).val ∧
      ∀ i, l ≤ i → i < u → (t i).val ≤ (forLoop l u (fun i s => s + t i) s).val := by
  have hself : ∀ a : R.Float, fin 0 ≤ a.val → a.val ≤ a.val := fun a ha =>
    le_self fun h => not_le_nan _ (h ▸ ha)
  rcases Nat.le_total l u with hlu | hul
  · refine forLoop_induction (fun k (r : R.Float) => k ≤ u → s.val ≤ r.val ∧
      ∀ i, l ≤ i → i < k → (t i).val ≤ r.val) hlu (fun _ => ⟨hself s hs, fun i _ _ => by omega⟩) ?_ le_rfl
    intro k r hk hku ih _
    obtain ⟨hsr, htr⟩ := ih hku.le
    obtain ⟨h₁, h₂⟩ := le_val_add (ExtFloat.le_trans hs hsr) (ht k hk hku)
    refine ⟨ExtFloat.le_trans hsr h₁, fun i hi hik => ?_⟩
    rcases Nat.lt_succ_iff_lt_or_eq.mp hik with hlt | rfl
    · exact ExtFloat.le_trans (htr i hi hlt) h₁
    · exact h₂
  · rw [forLoop_of_le hul]
    exact ⟨hself s hs, fun i _ _ => by omega⟩

/-- **Nested loops that add up** values that are not negative. -/
theorem forLoop_forLoop_add_le (t : ℕ → ℕ → R.Float) (r₀ c₀ : ℕ) {r₁ c₁ : ℕ}
    (ht : ∀ x y, x < r₁ → y < c₁ → fin 0 ≤ (t x y).val) {s : R.Float} (hs : fin 0 ≤ s.val) :
    s.val ≤ (forLoop r₀ r₁ (fun x s => forLoop c₀ c₁ (fun y s => s + t x y) s) s).val ∧
      ∀ x y, r₀ ≤ x → x < r₁ → c₀ ≤ y → y < c₁ →
        (t x y).val ≤ (forLoop r₀ r₁ (fun x s => forLoop c₀ c₁ (fun y s => s + t x y) s) s).val := by
  rcases Nat.le_total r₀ r₁ with hr | hr
  · refine forLoop_induction (fun k (r : R.Float) => k ≤ r₁ → s.val ≤ r.val ∧
      ∀ x y, r₀ ≤ x → x < k → c₀ ≤ y → y < c₁ → (t x y).val ≤ r.val) hr
      (fun _ => ⟨le_self fun h => not_le_nan _ (h ▸ hs), fun x y _ _ => by omega⟩) ?_ le_rfl
    intro k r hk hkr ih _
    obtain ⟨hsr, htr⟩ := ih hkr.le
    obtain ⟨h₁, h₂⟩ := forLoop_add_le (l := c₀) (u := c₁) (t := t k) (fun y _ hy => ht k y hkr hy)
      (ExtFloat.le_trans hs hsr)
    refine ⟨ExtFloat.le_trans hsr h₁, fun x y hx hxk hy hyc => ?_⟩
    rcases Nat.lt_succ_iff_lt_or_eq.mp hxk with hlt | rfl
    · exact ExtFloat.le_trans (htr x y hx hlt hy hyc) h₁
    · exact h₂ y hy hyc
  · rw [forLoop_of_le hr]
    exact ⟨le_self fun h => not_le_nan _ (h ▸ hs), fun x y _ _ => by omega⟩

end Float

/-! ## The error of a rounding -/

/-- A bound on the relative error of a rounding, `1` added. -/
noncomputable def tol : ℝ := 1 + 1 / (2 ^ 22 : ℕ)

/-- A bound on the absolute error of a rounding near zero. -/
noncomputable def tiny : ℝ := 1 / (2 ^ 149 : ℕ)

theorem one_le_tol : 1 ≤ tol := by
  unfold tol
  norm_num

theorem tiny_pos : 0 < tiny := by
  unfold tiny
  positivity

theorem tol_pow_le {k : ℕ} (hk : k ≤ 256) : tol ^ k ≤ 2 := by
  refine (pow_le_pow_right₀ one_le_tol hk).trans ?_
  unfold tol
  norm_num

variable {R : Rounding}

theorem round_near {x : ℝ} (hx : |x| ≤ 2 ^ 127) :
    ∃ y, R.round x = fin y ∧ |y - x| ≤ |x| / 2 ^ 24 + 1 / 2 ^ 150 :=
  R.near x (hx.trans (by norm_num))

theorem round_bounds {x : ℝ} (h₀ : 0 ≤ x) (hx : x ≤ 2 ^ 127) :
    ∃ y, R.round x = fin y ∧ 0 ≤ y ∧ y ≤ tol * x + tiny ∧ x ≤ tol * (y + tiny) := by
  obtain ⟨y, hy, hnear⟩ := round_near (R := R) ((abs_of_nonneg h₀).trans_le hx)
  rw [abs_of_nonneg h₀, abs_le] at hnear
  have hnonneg : fin 0 ≤ fin y := by
    rw [← hy, ← R.zero]
    exact R.mono 0 x h₀
  refine ⟨y, hy, hnonneg, ?_, ?_⟩
  · unfold tol tiny
    norm_num at hnear ⊢
    linarith
  · unfold tol tiny
    norm_num at hnear ⊢
    linarith

/-- The errors of two additions, of the larger sum `x + w` and of the smaller one `y + z`. -/
theorem rounded_sum_le {T K d c x w y z y' v : ℝ} (hT : 1 ≤ T) (hK : 0 ≤ K) (hd : 0 ≤ d) (hc : 0 ≤ c)
    (hsum : x + w ≤ T * (K * (y + z) + d + c)) (hyz : y + z ≤ tol * (y' + tiny))
    (hv : v ≤ tol * (x + w) + tiny) : v ≤ tol ^ 2 * T * (K * y' + d + (c + (K + 1) * tiny)) := by
  have htol := one_le_tol
  have htiny := tiny_pos
  have h₁ : d + c ≤ tol * (d + c) := le_mul_of_one_le_left (by linarith) htol
  have h₂ : tiny ≤ tol * (T * (tol * tiny)) := by
    have h := mul_le_mul hT (le_mul_of_one_le_left htiny.le htol) htiny.le (by linarith)
    rw [one_mul] at h
    exact h.trans (le_mul_of_one_le_left (by positivity) htol)
  have h₃ : K * (y + z) + d + c ≤ tol * (K * (y' + tiny) + d + c) := by
    have := mul_le_mul_of_nonneg_left hyz hK
    linarith
  have h₄ : x + w ≤ T * (tol * (K * (y' + tiny) + d + c)) :=
    hsum.trans (mul_le_mul_of_nonneg_left h₃ (by linarith))
  calc v ≤ tol * (x + w) + tiny := hv
    _ ≤ tol * (T * (tol * (K * (y' + tiny) + d + c))) + tol * (T * (tol * tiny)) :=
        add_le_add (mul_le_mul_of_nonneg_left h₄ (by linarith)) h₂
    _ = tol ^ 2 * T * (K * y' + d + (c + (K + 1) * tiny)) := by ring

theorem fin_of_le {x y q : ℝ} (hx : 0 ≤ x) (hxy : x ≤ y) (h : R.round y = fin q) : ∃ z, R.round x = fin z := by
  obtain ⟨z, hz, -⟩ := exists_fin (R.zero ▸ R.mono 0 x hx) (h ▸ R.mono x y hxy)
  exact ⟨z, hz⟩

theorem fin_abs {x q : ℝ} (h : R.round x = fin q) : ∃ z, R.round |x| = fin z := by
  rcases abs_choice x with habs | habs
  · exact ⟨q, by rw [habs, h]⟩
  · exact ⟨-q, by rw [habs, R.neg, h]; rfl⟩

theorem abs_lt_of_fin {x q : ℝ} (h : R.round x = fin q) : |x| < 2 ^ 128 := by
  obtain ⟨z, hz⟩ := fin_abs h
  by_contra hge
  rw [R.overflow _ (not_lt.mp hge)] at hz
  exact ExtFloat.noConfusion hz

namespace Float

variable {a b e p : R.Float}

/-- `a` is a number that is not negative, and where `b` is at most `1`, `a` is at most `K * b + k * c`, up to the
rounding of `k` additions to each. -/
def Below (K c : ℝ) (k : ℕ) (a b : R.Float) : Prop :=
  fin 0 ≤ b.val ∧ ∀ y ≤ 1, b.val = fin y → ∃ x, a.val = fin x ∧ 0 ≤ x ∧ x ≤ tol ^ (2 * k) * (K * y + k * c)

/-- A term `e` and a term `p`, likewise. -/
def TermBelow (K c₀ : ℝ) (e p : R.Float) : Prop :=
  fin 0 ≤ p.val ∧ ∀ y ≤ 1, p.val = fin y → ∃ x, e.val = fin x ∧ 0 ≤ x ∧ x ≤ K * y + c₀

/-- With terms that differ by `c₀`, an addition to each sum costs at most `c`. -/
structure Slack (K c₀ c : ℝ) : Prop where
  factor_nonneg : 0 ≤ K
  factor_le : K ≤ 2 ^ 64
  term_nonneg : 0 ≤ c₀
  room : c₀ + (K + 1) * tiny ≤ c
  le_one : c ≤ 1

theorem Below.add {K c c₀ : ℝ} (hs : Slack K c₀ c) {k : ℕ} (hk : k < 128) (hab : Below K c k a b)
    (hep : TermBelow K c₀ e p) : Below K c (k + 1) (a + e) (b + p) := by
  obtain ⟨hb, hab⟩ := hab
  obtain ⟨hp, hep⟩ := hep
  have hK : 0 ≤ K ∧ K ≤ 2 ^ 64 := ⟨hs.factor_nonneg, hs.factor_le⟩
  have hc := hs.room
  have hc₀ := hs.term_nonneg
  have hc₁ := hs.le_one
  obtain ⟨hbb', hpb'⟩ := le_val_add hb hp
  refine ⟨ExtFloat.le_trans hb hbb', fun y' hy' hb' => ?_⟩
  rw [hb'] at hbb' hpb'
  obtain ⟨y, hy, hy₀, hyy'⟩ := exists_fin hb hbb'
  obtain ⟨z, hz, hz₀, hzy'⟩ := exists_fin hp hpb'
  obtain ⟨x, hx, hx₀, hxle⟩ := hab y (hyy'.trans hy') hy
  obtain ⟨w, hw, hw₀, hwle⟩ := hep z (hzy'.trans hy') hz
  have hT : 1 ≤ tol ^ (2 * k) := one_le_pow₀ one_le_tol
  have hT₂ : tol ^ (2 * k) ≤ 2 := tol_pow_le (by omega)
  have htiny := tiny_pos
  have hkc : 0 ≤ (k : ℝ) * c := mul_nonneg k.cast_nonneg (by nlinarith)
  -- the exact sums
  have hsum : x + w ≤ tol ^ (2 * k) * (K * (y + z) + k * c + c₀) := by
    have : K * z + c₀ ≤ tol ^ (2 * k) * (K * z + c₀) := by
      refine le_mul_of_one_le_left ?_ hT
      have := mul_nonneg hK.1 hz₀
      linarith
    linarith
  have hyz : y + z ≤ tol * (y' + tiny) := by
    obtain ⟨v, hv, -, -, hle⟩ := round_bounds (R := R) (add_nonneg hy₀ hz₀) (by norm_num; linarith)
    rw [val_add, hy, hz, fin_add, fix_fin, hv, ExtFloat.fin.injEq] at hb'
    rwa [hb'] at hle
  have hlarge : x + w ≤ 2 ^ 127 := by
    have hKyz : K * (y + z) ≤ 2 ^ 64 * 2 := mul_le_mul hK.2 (by linarith) (by linarith) (by norm_num)
    have hkc' : (k : ℝ) * c ≤ 127 := by
      have : (k : ℝ) ≤ 127 := by exact_mod_cast Nat.le_of_lt_succ hk
      nlinarith
    have hKt : 0 ≤ (K + 1) * tiny := mul_nonneg (by linarith [hK.1]) htiny.le
    have hle : tol ^ (2 * k) * (K * (y + z) + k * c + c₀) ≤ 2 * (2 ^ 64 * 2 + 127 + 1) := by
      refine mul_le_mul hT₂ (by linarith) ?_ (by norm_num)
      have := mul_nonneg hK.1 (add_nonneg hy₀ hz₀)
      linarith
    refine (hsum.trans hle).trans (by norm_num)
  obtain ⟨v, hv, hv₀, hvle, -⟩ := round_bounds (R := R) (add_nonneg hx₀ hw₀) hlarge
  refine ⟨v, by rw [val_add, hx, hw, fin_add, fix_fin, hv], hv₀, ?_⟩
  have hstep := rounded_sum_le hT hK.1 hkc hc₀ hsum hyz hvle
  have hpow : 0 ≤ tol ^ (2 * (k + 1)) := pow_nonneg (zero_le_one.trans one_le_tol) _
  calc v ≤ tol ^ 2 * tol ^ (2 * k) * (K * y' + k * c + (c₀ + (K + 1) * tiny)) := hstep
    _ = tol ^ (2 * (k + 1)) * (K * y' + k * c + (c₀ + (K + 1) * tiny)) := by ring
    _ ≤ tol ^ (2 * (k + 1)) * (K * y' + (k + 1 : ℕ) * c) := by
        refine mul_le_mul_of_nonneg_left ?_ hpow
        push_cast
        linarith

theorem Below.zero {K c : ℝ} (k : ℕ) (hc : 0 ≤ c) : Below K c k (ofRat 0 : R.Float) (ofRat 0) := by
  refine ⟨by rw [val_zero]; exact le_refl (0 : ℝ), fun y _ hy => ⟨0, val_zero, le_rfl, ?_⟩⟩
  rw [val_zero, ExtFloat.fin.injEq] at hy
  rw [← hy, mul_zero, zero_add]
  have := pow_nonneg (zero_le_one.trans one_le_tol) (2 * k)
  positivity

/-- **Two sums in step**, each of at most 128 terms. -/
theorem Below.forLoop {K c c₀ : ℝ} (hs : Slack K c₀ c) {l u m v : ℕ} (hlu : l ≤ u) (hmv : m ≤ v)
    (hcount : (u - l) * (v - m) ≤ 128) (t t' : ℕ → ℕ → R.Float)
    (ht : ∀ x y, x < u → y < v → TermBelow K c₀ (t x y) (t' x y)) :
    Below K c ((u - l) * (v - m)) (forLoop l u (fun x s => forLoop m v (fun y s => s + t x y) s) (ofRat 0))
      (forLoop l u (fun x s => forLoop m v (fun y s => s + t' x y) s) (ofRat 0)) := by
  have hc : 0 ≤ c := by
    have := mul_nonneg (by linarith [hs.factor_nonneg] : 0 ≤ K + 1) tiny_pos.le
    linarith [hs.room, hs.term_nonneg]
  refine forLoop_rel_induction (fun x a b => Below K c ((x - l) * (v - m)) a b) hlu (Below.zero _ hc)
    fun x a b hx hxu hab => ?_
  have hrow : (x - l + 1) * (v - m) ≤ 128 := (Nat.mul_le_mul_right _ (by omega)).trans hcount
  rw [Nat.sub_add_comm hx, Nat.succ_mul]
  refine forLoop_rel_induction (fun y a b => Below K c ((x - l) * (v - m) + (y - m)) a b) hmv (by simpa using hab)
    fun y a b hy hyv hab => ?_
  rw [Nat.sub_add_comm hy, ← Nat.add_assoc]
  refine hab.add hs ?_ (ht x y hxu hyv)
  rw [Nat.succ_mul] at hrow
  omega

/-- What that says of at most 128 additions. -/
theorem Below.bound {K c y : ℝ} {k : ℕ} (h : Below K c k a b) (hk : k ≤ 128) (hK : 0 ≤ K) (hc : 0 ≤ c) (hy : y ≤ 1)
    (hb : b.val = fin y) : ∃ x, a.val = fin x ∧ 0 ≤ x ∧ x ≤ 1.0001 * (K * y + 128 * c) := by
  obtain ⟨x, hx, hx₀, hle⟩ := h.2 y hy hb
  have hy₀ : 0 ≤ y := by
    have h₀ := h.1
    rwa [hb] at h₀
  have hT : tol ^ (2 * k) ≤ 1.0001 := by
    refine (pow_le_pow_right₀ one_le_tol (by omega : 2 * k ≤ 256)).trans ?_
    unfold tol
    norm_num
  have hkc : (k : ℝ) * c ≤ 128 * c := mul_le_mul_of_nonneg_right (by exact_mod_cast hk) hc
  refine ⟨x, hx, hx₀, hle.trans (mul_le_mul hT (by linarith) ?_ (by norm_num))⟩
  have := mul_nonneg hK hy₀
  positivity

/-! ## Relative errors -/

/-- `a` is the positive number `x`, up to `k` roundings. -/
def Approx (k : ℕ) (a : R.Float) (x : ℝ) : Prop := 0 < x ∧ ∃ y, a.val = fin y ∧ x ≤ y * tol ^ k ∧ y ≤ x * tol ^ k

theorem Approx.of_eq (h : a.val = fin x) (hx : 0 < x) : Approx 0 a x := ⟨hx, x, h, by simp, by simp⟩

theorem Approx.exists_pos {k : ℕ} (h : Approx k a x) :
    ∃ y, 0 < y ∧ a.val = fin y ∧ x ≤ y * tol ^ k ∧ y ≤ x * tol ^ k := by
  obtain ⟨hx, y, hy, h₁, h₂⟩ := h
  exact ⟨y, pos_of_mul_pos_left (hx.trans_le h₁) (pow_nonneg (zero_le_one.trans one_le_tol) k), hy, h₁, h₂⟩

/-- The rounding of a number near `x`. -/
theorem Approx.of_round {k : ℕ} (hk : k ≤ 256) {z : ℝ} (ha : a.val = R.round z) (h₁ : x ≤ z * tol ^ k)
    (h₂ : z ≤ x * tol ^ k) (hx₁ : 1 / 2 ^ 100 ≤ x) (hx₂ : x ≤ 2 ^ 100) : Approx (k + 1) a x := by
  have hT : 1 ≤ tol ^ k := one_le_pow₀ one_le_tol
  have hT₂ := tol_pow_le hk
  have hx : 0 < x := lt_of_lt_of_le (by norm_num) hx₁
  have hz : 0 < z := by
    by_contra hneg
    nlinarith
  have hzx : x / 2 ≤ z := by nlinarith
  have hzx' : z ≤ 2 * x := by nlinarith
  obtain ⟨y, hy, hnear⟩ := round_near (R := R) (x := z) (by
    rw [abs_of_pos hz]
    norm_num at hx₂ ⊢
    linarith)
  rw [abs_of_pos hz, abs_le] at hnear
  have hsmall : (1 : ℝ) / 2 ^ 150 ≤ z / 2 ^ 24 := by
    norm_num at hx₁ ⊢
    linarith
  have hyz : z ≤ y * tol ∧ y ≤ z * tol := by
    unfold tol
    norm_num at hnear hsmall ⊢
    constructor <;> linarith
  refine ⟨hx, y, ha.trans hy, ?_, ?_⟩
  · calc x ≤ z * tol ^ k := h₁
      _ ≤ y * tol * tol ^ k := by gcongr; exact hyz.1
      _ = y * tol ^ (k + 1) := by ring
  · calc y ≤ z * tol := hyz.2
      _ ≤ x * tol ^ k * tol := by
          refine mul_le_mul_of_nonneg_right h₂ ?_
          linarith [one_le_tol]
      _ = x * tol ^ (k + 1) := by ring

theorem Approx.ofRat {q : ℚ} (h₁ : (1 / 2 ^ 100 : ℝ) ≤ q) (h₂ : (q : ℝ) ≤ 2 ^ 100) : Approx 1 (ofRat q : R.Float) q :=
  Approx.of_round (by decide) (val_ofRat q) (by simp) (by simp) h₁ h₂

theorem Approx.ofNat {n : ℕ} (h₁ : 1 ≤ n) (h₂ : n ≤ 2 ^ 100) : Approx 1 (CFloat.ofNat n : R.Float) n := by
  have h := Approx.ofRat (R := R) (q := n) ?_ ?_
  · rwa [Rat.cast_natCast] at h
  · rw [Rat.cast_natCast]
    have : (1 : ℝ) ≤ n := by exact_mod_cast h₁
    exact le_trans (by norm_num) this
  · rw [Rat.cast_natCast]
    exact_mod_cast h₂

variable {j k : ℕ}

theorem Approx.mul (ha : Approx j a x) (hb : Approx k b y) (hjk : j + k ≤ 256) (h₁ : 1 / 2 ^ 100 ≤ x * y)
    (h₂ : x * y ≤ 2 ^ 100) : Approx (j + k + 1) (a * b) (x * y) := by
  obtain ⟨v, hv₀, hv, hxv, hvx⟩ := ha.exists_pos
  obtain ⟨w, hw₀, hw, hyw, hwy⟩ := hb.exists_pos
  have htol : 0 ≤ tol := zero_le_one.trans one_le_tol
  refine Approx.of_round hjk (z := v * w) (by rw [val_mul, hv, hw, fin_mul, fix_fin]) ?_ ?_ h₁ h₂
  · calc x * y ≤ v * tol ^ j * (w * tol ^ k) := mul_le_mul hxv hyw hb.1.le (ha.1.le.trans hxv)
      _ = v * w * tol ^ (j + k) := by ring
  · calc v * w ≤ x * tol ^ j * (y * tol ^ k) := mul_le_mul hvx hwy hw₀.le (hv₀.le.trans hvx)
      _ = x * y * tol ^ (j + k) := by ring

theorem Approx.div (ha : Approx j a x) (hb : Approx k b y) (hjk : j + k ≤ 256) (h₁ : 1 / 2 ^ 100 ≤ x / y)
    (h₂ : x / y ≤ 2 ^ 100) : Approx (j + k + 1) (a / b) (x / y) := by
  obtain ⟨v, hv₀, hv, hxv, hvx⟩ := ha.exists_pos
  obtain ⟨w, hw₀, hw, hyw, hwy⟩ := hb.exists_pos
  have hy := hb.1
  refine Approx.of_round hjk (z := v / w) (by rw [val_div, hv, hw, fin_div hw₀.ne', fix_fin]) ?_ ?_ h₁ h₂
  · rw [div_mul_eq_mul_div, div_le_div_iff₀ hy hw₀]
    calc x * w ≤ v * tol ^ j * (y * tol ^ k) := mul_le_mul hxv hwy hw₀.le (ha.1.le.trans hxv)
      _ = v * tol ^ (j + k) * y := by ring
  · rw [div_mul_eq_mul_div, div_le_div_iff₀ hw₀ hy]
    calc v * y ≤ x * tol ^ j * (w * tol ^ k) := mul_le_mul hvx hyw hy.le (hv₀.le.trans hvx)
      _ = x * tol ^ (j + k) * w := by ring

theorem Approx.sqrt (ha : Approx k a x) (hk : k ≤ 256) (h₁ : 1 / 2 ^ 100 ≤ Real.sqrt x) (h₂ : Real.sqrt x ≤ 2 ^ 100) :
    Approx (k + 1) (CFloat.sqrt a) (Real.sqrt x) := by
  obtain ⟨v, hv₀, hv, hxv, hvx⟩ := ha.exists_pos
  have hT : 1 ≤ tol ^ k := one_le_pow₀ one_le_tol
  have hroot : Real.sqrt (tol ^ k) ≤ tol ^ k := by
    rw [Real.sqrt_le_left (by linarith)]
    nlinarith
  refine Approx.of_round hk (z := Real.sqrt v) (by rw [val_sqrt, hv, fin_sqrt hv₀.le, fix_fin]) ?_ ?_ h₁ h₂
  · calc Real.sqrt x ≤ Real.sqrt (v * tol ^ k) := Real.sqrt_le_sqrt hxv
      _ = Real.sqrt v * Real.sqrt (tol ^ k) := Real.sqrt_mul hv₀.le _
      _ ≤ Real.sqrt v * tol ^ k := mul_le_mul_of_nonneg_left hroot (Real.sqrt_nonneg v)
  · calc Real.sqrt v ≤ Real.sqrt (x * tol ^ k) := Real.sqrt_le_sqrt hvx
      _ = Real.sqrt x * Real.sqrt (tol ^ k) := Real.sqrt_mul ha.1.le _
      _ ≤ Real.sqrt x * tol ^ k := mul_le_mul_of_nonneg_left hroot (Real.sqrt_nonneg x)

/-- The bounds on `a`. -/
theorem Approx.bounds {k : ℕ} (ha : Approx k a x) (hk : k ≤ 64) :
    ∃ y, a.val = fin y ∧ 0 < y ∧ 0.9999 * x ≤ y ∧ y ≤ 1.0001 * x := by
  obtain ⟨y, hy₀, hy, h₁, h₂⟩ := ha.exists_pos
  have hT : tol ^ k ≤ 1.0001 := by
    refine (pow_le_pow_right₀ one_le_tol hk).trans ?_
    unfold tol
    norm_num
  have hx := ha.1
  refine ⟨y, hy, hy₀, ?_, ?_⟩
  · have := h₁.trans (mul_le_mul_of_nonneg_left hT hy₀.le)
    nlinarith
  · exact h₂.trans ((mul_le_mul_of_nonneg_left hT hx.le).trans (by linarith))

/-! ## Absolute errors -/

/-- `a` is a number within `ε` of `x`. -/
def Near (a : R.Float) (x ε : ℝ) : Prop := ∃ y, a.val = fin y ∧ |y - x| ≤ ε

variable {ε δ τ X Y : ℝ}

theorem Near.ofRat {q : ℚ} (hq : |(q : ℝ)| ≤ X) (hX : X ≤ 2 ^ 127) (hτ : X / 2 ^ 24 + 1 / 2 ^ 150 ≤ τ) :
    Near (CFloat.ofRat q : R.Float) q τ := by
  obtain ⟨y, hy, hnear⟩ := round_near (R := R) (hq.trans hX)
  refine ⟨y, hy, hnear.trans (le_trans ?_ hτ)⟩
  gcongr

theorem Near.mul (ha : Near a x ε) (hb : Near b y δ) (hx : |x| ≤ X) (hy : |y| ≤ Y)
    (hXY : (X + ε) * (Y + δ) ≤ 2 ^ 127)
    (hτ : (X + ε) * δ + Y * ε + ((X + ε) * (Y + δ) / 2 ^ 24 + 1 / 2 ^ 150) ≤ τ) : Near (a * b) (x * y) τ := by
  obtain ⟨v, hv, hvx⟩ := ha
  obtain ⟨w, hw, hwy⟩ := hb
  have hvX : |v| ≤ X + ε := by
    have := abs_sub_abs_le_abs_sub v x
    linarith
  have hwY : |w| ≤ Y + δ := by
    have := abs_sub_abs_le_abs_sub w y
    linarith
  have hvw : |v * w| ≤ (X + ε) * (Y + δ) := by
    rw [abs_mul]
    exact mul_le_mul hvX hwY (abs_nonneg w) ((abs_nonneg v).trans hvX)
  obtain ⟨z, hz, hnear⟩ := round_near (R := R) (hvw.trans hXY)
  refine ⟨z, by rw [val_mul, hv, hw, fin_mul, fix_fin, hz], ?_⟩
  have hsplit : |v * w - x * y| ≤ (X + ε) * δ + Y * ε := by
    calc |v * w - x * y| = |v * (w - y) + y * (v - x)| := by ring_nf
      _ ≤ |v * (w - y)| + |y * (v - x)| := abs_add_le _ _
      _ = |v| * |w - y| + |y| * |v - x| := by rw [abs_mul, abs_mul]
      _ ≤ (X + ε) * δ + Y * ε := add_le_add (mul_le_mul hvX hwy (abs_nonneg _) ((abs_nonneg v).trans hvX))
          (mul_le_mul hy hvx (abs_nonneg _) ((abs_nonneg y).trans hy))
  have hround : |v * w| / 2 ^ 24 ≤ (X + ε) * (Y + δ) / 2 ^ 24 := by gcongr
  have := abs_sub_le z (v * w) (x * y)
  linarith

theorem Near.sub (ha : Near a x ε) (hb : Near b y δ) (hx : |x| ≤ X) (hy : |y| ≤ Y)
    (hXY : X + ε + (Y + δ) ≤ 2 ^ 127) (hτ : ε + δ + ((X + ε + (Y + δ)) / 2 ^ 24 + 1 / 2 ^ 150) ≤ τ) :
    Near (a - b) (x - y) τ := by
  obtain ⟨v, hv, hvx⟩ := ha
  obtain ⟨w, hw, hwy⟩ := hb
  have hvX : |v| ≤ X + ε := by
    have := abs_sub_abs_le_abs_sub v x
    linarith
  have hwY : |w| ≤ Y + δ := by
    have := abs_sub_abs_le_abs_sub w y
    linarith
  have hvw : |v - w| ≤ X + ε + (Y + δ) := (abs_sub v w).trans (add_le_add hvX hwY)
  obtain ⟨z, hz, hnear⟩ := round_near (R := R) (hvw.trans hXY)
  refine ⟨z, by rw [val_sub, hv, hw, fin_sub, fix_fin, hz], ?_⟩
  have hsplit : |v - w - (x - y)| ≤ ε + δ := by
    rw [show v - w - (x - y) = (v - x) - (w - y) by ring]
    exact (abs_sub _ _).trans (add_le_add hvx hwy)
  have hround : |v - w| / 2 ^ 24 ≤ (X + ε + (Y + δ)) / 2 ^ 24 := by gcongr
  have := abs_sub_le z (v - w) (x - y)
  linarith

end Float

end Rounding
