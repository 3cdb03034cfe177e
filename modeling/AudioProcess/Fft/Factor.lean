import AudioProcess.Fft.Model
import Mathlib.Data.Nat.Prime.Basic
import Mathlib.NumberTheory.SmoothNumbers
import Mathlib.Tactic.IntervalCases

/-!
# The factors of a transform's length

* `Stages`: the lengths of the stages, each the next one times its radix;
* `FactorInv`, `factorRank`: what a turn of `kf_factor` keeps, and how many turns are left;
* **`kfFactor_spec`**: `kf_factor` ends, every radix is four or a prime, and the pairs fit `factors`;
* `maxFastSize`: the largest size in an `int` whose prime factors are two, three and five;
* **`nextFast_spec`**: up to it `kiss_fft_next_fast_size` ends with the least size it can take, and overflows past it.
-/

namespace AudioProcess

open While

/-! ## Stages -/

/-- The pairs `p₁, m₁, p₂, m₂, …` lead from the length `n` to `rest`: each length is the next one times its radix. -/
def Stages : ℕ → List (ℕ × ℕ) → ℕ → Prop
  | n, [], rest => n = rest
  | n, (p, m) :: factors, rest => n = p * m ∧ Stages m factors rest

theorem Stages.append {n p m : ℕ} {factors : List (ℕ × ℕ)} (h : Stages n factors (p * m)) :
    Stages n (factors ++ [(p, m)]) m := by
  induction factors generalizing n with
  | nil => exact ⟨h, rfl⟩
  | cons pm factors ih => exact ⟨h.1, ih h.2⟩

/-- Radices of two and more shrink the length at least by half at each stage. -/
theorem Stages.two_pow_le {n : ℕ} {factors : List (ℕ × ℕ)} (h : Stages n factors 1)
    (htwo : ∀ pm ∈ factors, 2 ≤ pm.1) : 2 ^ factors.length ≤ n := by
  induction factors generalizing n with
  | nil => exact (show n = 1 from h) ▸ le_rfl
  | cons pm factors ih =>
      have htail := ih h.2 fun q hq => htwo q (List.mem_cons_of_mem pm hq)
      calc 2 ^ (factors.length + 1)
          = 2 * 2 ^ factors.length := by rw [pow_succ, Nat.mul_comm]
        _ ≤ pm.1 * pm.2 := Nat.mul_le_mul (htwo pm List.mem_cons_self) htail
        _ = n := h.1.symm

/-! ## `kf_factor` -/

/-- `MAXFACTORS`. -/
def maxFactors : ℕ := 32

/-- No factor of `n` is left out below the radix `p`. -/
def Tried (n p : ℕ) : Prop := p = 4 ∨ (p = 2 ∨ p % 2 = 1) ∧ 2 ≤ p ∧ ∀ q, q.Prime → q ∣ n → p ≤ q

/-- What a turn of `kf_factor` keeps, for the length `n`. -/
structure FactorInv (n : ℕ) (s : KfFactor) : Prop where
  stages : Stages n s.facbuf s.n
  radix : ∀ pm ∈ s.facbuf, pm.1 = 4 ∨ pm.1.Prime
  rest : 1 < s.n
  le : s.n ≤ n
  tried : Tried s.n s.p

/-- How far the radix has come. -/
def radixRank (p : ℕ) : ℕ := if p = 4 then 0 else if p = 2 then 1 else p

/-- An upper bound on the turns that are left. -/
def factorRank (n : ℕ) (s : KfFactor) : ℕ := s.n + (n + 2 - radixRank s.p)

theorem Tried.of_dvd {n n' p : ℕ} (h : Tried n p) (hdvd : n' ∣ n) : Tried n' p :=
  h.imp_right fun h => ⟨h.1, h.2.1, fun q hq hqn => h.2.2 q hq (hqn.trans hdvd)⟩

/-- A radix that divides is four or a prime. -/
theorem Tried.prime {n p : ℕ} (h : Tried n p) (hdvd : p ∣ n) : p = 4 ∨ p.Prime := by
  refine h.imp_right fun h => ?_
  have hle := h.2.2 p.minFac (Nat.minFac_prime (by omega)) ((Nat.minFac_dvd p).trans hdvd)
  have heq : p.minFac = p := le_antisymm (Nat.minFac_le (by omega)) hle
  exact heq ▸ Nat.minFac_prime (by omega)

/-- A radix that does not divide is followed by one that leaves no factor out. -/
theorem Tried.nextRadix {n p : ℕ} (h : Tried n p) (hndvd : ¬ p ∣ n) :
    (nextRadix p = 2 ∨ nextRadix p % 2 = 1) ∧ 2 ≤ nextRadix p ∧ ∀ q, q.Prime → q ∣ n → nextRadix p ≤ q := by
  unfold AudioProcess.nextRadix
  rcases h with rfl | ⟨hodd, htwo, hmin⟩
  · exact ⟨.inl rfl, le_rfl, fun q hq _ => hq.two_le⟩
  · have hne : ∀ q, q.Prime → q ∣ n → p < q := fun q hq hqn =>
      lt_of_le_of_ne (hmin q hq hqn) fun heq => hndvd (heq ▸ hqn)
    have h4 : p ≠ 4 := by omega
    rw [if_neg h4]
    split_ifs with h2
    · exact ⟨.inr rfl, by omega, fun q hq hqn => by have := hne q hq hqn; omega⟩
    · refine ⟨.inr (by omega), by omega, fun q hq hqn => ?_⟩
      have hlt := hne q hq hqn
      have hqodd := hq.eq_two_or_odd
      omega

/-- Past the root of the length, what is left is a prime. -/
theorem prime_of_root_lt {n k p : ℕ} (hk : 1 < k) (hkn : k ≤ n) (hp : n.sqrt < p)
    (hmin : ∀ q, q.Prime → q ∣ k → p ≤ q) : k.Prime := by
  by_contra hnot
  have hle := hmin k.minFac (Nat.minFac_prime (by omega)) (Nat.minFac_dvd k)
  have hsq := Nat.minFac_sq_le_self (by omega) hnot
  have hroot : k.minFac ≤ n.sqrt := Nat.le_sqrt'.mpr (hsq.trans hkn)
  omega

/-- **One turn of `kf_factor`.** -/
theorem kfFactorTurn_spec {n : ℕ} (s : KfFactor) (hs : FactorInv n s) :
    TurnSpec (FactorInv n) (factorRank n)
      (fun o => ∃ s', o = .ended s' ∧ Stages n s'.facbuf 1 ∧ ∀ pm ∈ s'.facbuf, pm.1 = 4 ∨ pm.1.Prime) s
      (kfFactorTurn n.sqrt s) := by
  have hrest := hs.rest
  have hle := hs.le
  unfold kfFactorTurn
  by_cases hmod : s.n % s.p ≠ 0
  · rw [if_pos hmod]
    have hndvd : ¬ s.p ∣ s.n := fun h => hmod (Nat.mod_eq_zero_of_dvd h)
    obtain ⟨hodd, htwo, hmin⟩ := hs.tried.nextRadix hndvd
    have hfac := hmin s.n.minFac (Nat.minFac_prime (by omega)) (Nat.minFac_dvd s.n)
    have hfacle := Nat.minFac_le (show 0 < s.n by omega)
    have hrank : ∀ p, nextRadix s.p ≤ p → p ≤ n → (p = 2 ∨ p % 2 = 1) →
        n + 2 - radixRank p < n + 2 - radixRank s.p := by
      intro p hp hpn hpodd
      have htried := hs.tried
      unfold nextRadix at hp
      unfold radixRank
      unfold Tried at htried
      split_ifs at hp ⊢ <;> omega
    dsimp only
    by_cases hjump : nextRadix s.p > n.sqrt
    · rw [if_pos hjump]
      have hprime := prime_of_root_lt hrest hle hjump hmin
      have hoddn := hprime.eq_two_or_odd
      refine ⟨⟨hs.stages, hs.radix, hrest, hle, .inr ⟨hoddn, hprime.two_le, fun q hq hqn => ?_⟩⟩, ?_⟩
      · exact ((Nat.prime_dvd_prime_iff_eq hq hprime).mp hqn).ge
      · exact Nat.add_lt_add_left (hrank s.n (by omega) hle hoddn) _
    · rw [if_neg hjump]
      refine ⟨⟨hs.stages, hs.radix, hrest, hle, .inr ⟨hodd, htwo, hmin⟩⟩, ?_⟩
      exact Nat.add_lt_add_left (hrank (nextRadix s.p) le_rfl (by omega) hodd) _
  · rw [if_neg hmod]
    have hdvd : s.p ∣ s.n := Nat.dvd_of_mod_eq_zero (not_not.mp hmod)
    have htwo : 2 ≤ s.p := by
      have htried := hs.tried
      unfold Tried at htried
      omega
    have hdiv : s.p * (s.n / s.p) = s.n := Nat.mul_div_cancel' hdvd
    have hlt : s.n / s.p < s.n := Nat.div_lt_self (by omega) htwo
    have hstages : Stages n (s.facbuf ++ [(s.p, s.n / s.p)]) (s.n / s.p) := (hdiv ▸ hs.stages).append
    have hradix : ∀ pm ∈ s.facbuf ++ [(s.p, s.n / s.p)], pm.1 = 4 ∨ pm.1.Prime := by
      intro pm hpm
      rcases List.mem_append.mp hpm with hpm | hpm
      · exact hs.radix pm hpm
      · exact (List.mem_singleton.mp hpm) ▸ hs.tried.prime hdvd
    dsimp only
    by_cases hone : s.n / s.p > 1
    · rw [if_pos hone]
      refine ⟨⟨hstages, hradix, hone, hlt.le.trans hle, hs.tried.of_dvd (Nat.div_dvd_of_dvd hdvd)⟩, ?_⟩
      exact Nat.add_lt_add_right hlt _
    · rw [if_neg hone]
      have hpos : 0 < s.n / s.p := Nat.div_pos (Nat.le_of_dvd (by omega) hdvd) (by omega)
      exact ⟨_, rfl, (show s.n / s.p = 1 by omega) ▸ hstages, hradix⟩

theorem FactorInv.init {n : ℕ} (hn : 1 < n) : FactorInv n ⟨n, 4, []⟩ :=
  ⟨rfl, fun _ h => absurd h List.not_mem_nil, hn, le_rfl, .inl rfl⟩

/-- The loop of `kf_factor` ends. -/
theorem kfFactor_ends {n : ℕ} (hn : 1 < n) : ∃ s, whileLoop (kfFactorTurn n.sqrt) (3 * n + 6) ⟨n, 4, []⟩ =
    some (.ended s) ∧ s.facbuf = kfFactor n ∧ Stages n (kfFactor n) 1 ∧
      ∀ pm ∈ kfFactor n, pm.1 = 4 ∨ pm.1.Prime := by
  have hfuel : factorRank n ⟨n, 4, []⟩ < 3 * n + 6 := by
    simp only [factorRank]
    omega
  obtain ⟨o, hloop, s, rfl, hstages, hradix⟩ :=
    whileLoop_of_variant (factorRank n) kfFactorTurn_spec (FactorInv.init hn) hfuel
  have heq : s.facbuf = kfFactor n := by rw [kfFactor, hloop]
  exact ⟨s, hloop, heq, heq ▸ hstages, heq ▸ hradix⟩

/-- The stages of any length but zero. -/
theorem kfFactor_stages {n : ℕ} (hn : 0 < n) : Stages n (kfFactor n) 1 := by
  rcases Nat.lt_or_ge 1 n with h | h
  · obtain ⟨-, -, -, hstages, -⟩ := kfFactor_ends h
    exact hstages
  · obtain rfl : n = 1 := by omega
    exact ⟨rfl, rfl⟩

/-- **The factors of a length.** For every length of two and more, `kf_factor` ends; the pairs it writes lead from
the length down to one, each length the next one times its radix; every radix is four or a prime; and for a length
in an `int` the pairs fit the array `factors`. -/
theorem kfFactor_spec (n : ℕ) (hn : 1 < n) :
    (∃ s, Yields (kfFactorTurn n.sqrt) ⟨n, 4, []⟩ (.ended s) ∧ s.facbuf = kfFactor n) ∧
    Stages n (kfFactor n) 1 ∧ (∀ pm ∈ kfFactor n, pm.1 = 4 ∨ pm.1.Prime) ∧
    ((n : ℤ) ≤ CInt.intMax → (kfFactor n).length ≤ maxFactors) := by
  obtain ⟨s, hloop, hbuf, hstages, hradix⟩ := kfFactor_ends hn
  refine ⟨⟨s, ⟨_, hloop⟩, hbuf⟩, hstages, hradix, fun hint => ?_⟩
  have hpow : 2 ^ (kfFactor n).length ≤ n := hstages.two_pow_le fun pm hpm => by
    rcases hradix pm hpm with h | h
    · omega
    · exact h.two_le
  have hlt : 2 ^ (kfFactor n).length < 2 ^ maxFactors := by
    have hmax : (n : ℤ) ≤ 2147483647 := hint
    have h32 : 2 ^ maxFactors = 4294967296 := by decide
    omega
  exact ((Nat.pow_lt_pow_iff_right (by decide)).mp hlt).le

/-- The length `96`: the array is `4, 24, 4, 6, 2, 3, 3, 1`. -/
theorem kfFactor_spec_96 : Stages 96 (kfFactor 96) 1 ∧ (kfFactor 96).length ≤ maxFactors :=
  ⟨(kfFactor_spec 96 (by decide)).2.1, (kfFactor_spec 96 (by decide)).2.2.2 (by decide)⟩

example : kfFactor 96 = [(4, 24), (4, 6), (2, 3), (3, 1)] := by decide +kernel

/-! ## `kiss_fft_next_fast_size` -/

/-- The sizes from `n` on whose prime factors are two, three and five. -/
def fastSizes (n : ℕ) : Set ℕ := {k | n ≤ k ∧ k ∈ Nat.smoothNumbers 6}

/-- What a turn of `kiss_fft_next_fast_size` keeps: the size without `m` is fast, and no smaller size is. -/
structure NextFastInv (n : ℕ) (s : NextFast) : Prop where
  le : n ≤ s.n
  int : (s.n : ℤ) ≤ CInt.intMax
  rest : ∃ c ∈ Nat.smoothNumbers 6, s.n = c * s.m
  pos : 0 < s.m
  least : ∀ k ∈ fastSizes n, s.n ≤ k

theorem one_mem_smoothNumbers : 1 ∈ Nat.smoothNumbers 6 :=
  Nat.mem_smoothNumbers'.mpr fun _ hp hdvd => absurd (Nat.dvd_one.mp hdvd) hp.ne_one

/-- A fast size is a product of powers of two, three and five. -/
theorem exists_pow_of_fast (k : ℕ) (hk : k ∈ Nat.smoothNumbers 6) : ∃ a b c, k = 2 ^ a * 3 ^ b * 5 ^ c := by
  induction k using Nat.strong_induction_on with
  | h k ih =>
      rcases eq_or_ne k 1 with rfl | hone
      · exact ⟨0, 0, 0, rfl⟩
      · have hprime := Nat.minFac_prime hone
        have hlt := Nat.mem_smoothNumbers'.mp hk k.minFac hprime (Nat.minFac_dvd k)
        have hmul : k.minFac * (k / k.minFac) = k := Nat.mul_div_cancel' (Nat.minFac_dvd k)
        have hpos : 0 < k := Nat.pos_of_ne_zero (Nat.ne_zero_of_mem_smoothNumbers hk)
        obtain ⟨a, b, c, hrest⟩ := ih (k / k.minFac) (Nat.div_lt_self hpos hprime.one_lt)
          (Nat.mem_smoothNumbers_of_dvd hk ⟨k.minFac, by rw [Nat.mul_comm]; exact hmul.symm⟩)
        generalize k / k.minFac = rest at hmul hrest
        generalize k.minFac = q at hprime hlt hmul
        subst hrest
        interval_cases q
        · exact absurd hprime (by decide)
        · exact absurd hprime (by decide)
        · exact ⟨a + 1, b, c, by rw [← hmul]; ring⟩
        · exact ⟨a, b + 1, c, by rw [← hmul]; ring⟩
        · exact absurd hprime (by decide)
        · exact ⟨a, b, c + 1, by rw [← hmul]; ring⟩

/-- The largest fast size in an `int`, which is `2 ^ 5 * 3 ^ 12 * 5 ^ 3`. -/
def maxFastSize : ℕ := 2125764000

theorem maxFastSize_mem : maxFastSize ∈ Nat.smoothNumbers 6 := by
  refine Nat.mem_smoothNumbers'.mpr fun p hp hdvd => ?_
  rw [show maxFastSize = 2 ^ 5 * 3 ^ 12 * 5 ^ 3 by decide] at hdvd
  rcases (Nat.Prime.dvd_mul hp).mp hdvd with hdvd | hdvd
  · rcases (Nat.Prime.dvd_mul hp).mp hdvd with hdvd | hdvd
    · have := (Nat.prime_dvd_prime_iff_eq hp Nat.prime_two).mp (hp.dvd_of_dvd_pow hdvd)
      omega
    · have := (Nat.prime_dvd_prime_iff_eq hp Nat.prime_three).mp (hp.dvd_of_dvd_pow hdvd)
      omega
  · have := (Nat.prime_dvd_prime_iff_eq hp Nat.prime_five).mp (hp.dvd_of_dvd_pow hdvd)
    omega

/-- No product of powers of two, three and five is between the largest fast size and the largest `int`. -/
theorem maxFastSize_gap : ∀ a < 31, ∀ b < 20, ∀ c < 14,
    2 ^ a * 3 ^ b * 5 ^ c ≤ maxFastSize ∨ 2 ^ 31 ≤ 2 ^ a * 3 ^ b * 5 ^ c := by
  decide +kernel

/-- A fast size in an `int` is at most the largest one. -/
theorem le_maxFastSize {k : ℕ} (hk : k ∈ Nat.smoothNumbers 6) (hint : (k : ℤ) ≤ CInt.intMax) : k ≤ maxFastSize := by
  obtain ⟨a, b, c, rfl⟩ := exists_pow_of_fast k hk
  have hlt : 2 ^ a * 3 ^ b * 5 ^ c < 2 ^ 31 := by
    have hmax : (((2 ^ a * 3 ^ b * 5 ^ c : ℕ)) : ℤ) ≤ 2147483647 := hint
    omega
  have htwo : 0 < 2 ^ a := Nat.pow_pos (by decide)
  have hthree : 0 < 3 ^ b := Nat.pow_pos (by decide)
  have hfive : 0 < 5 ^ c := Nat.pow_pos (by decide)
  have hleab : 2 ^ a * 3 ^ b ≤ 2 ^ a * 3 ^ b * 5 ^ c := Nat.le_mul_of_pos_right _ hfive
  have ha : 2 ^ a < 2 ^ 31 := ((Nat.le_mul_of_pos_right _ hthree).trans hleab).trans_lt hlt
  have hb : 3 ^ b < 3 ^ 20 := (((Nat.le_mul_of_pos_left _ htwo).trans hleab).trans_lt hlt).trans (by decide)
  have hc : 5 ^ c < 5 ^ 14 :=
    ((Nat.le_mul_of_pos_left _ (Nat.mul_pos htwo hthree)).trans_lt hlt).trans (by decide)
  have hgap := maxFastSize_gap a ((Nat.pow_lt_pow_iff_right (by decide)).mp ha) b
    ((Nat.pow_lt_pow_iff_right (by decide)).mp hb) c ((Nat.pow_lt_pow_iff_right (by decide)).mp hc)
  exact hgap.resolve_right (not_le.mpr hlt)

/-- A prime below six is divided out. -/
theorem NextFastInv.divide {n q : ℕ} {s : NextFast} (hs : NextFastInv n s) (hq : q.Prime) (hq6 : q < 6)
    (hmod : s.m % q = 0) : NextFastInv n { s with m := s.m / q } ∧ s.m / q < s.m := by
  obtain ⟨c, hc, hn⟩ := hs.rest
  have hdvd : q * (s.m / q) = s.m := Nat.mul_div_cancel' (Nat.dvd_of_mod_eq_zero hmod)
  have hfast : q ∈ Nat.smoothNumbers 6 := Nat.mem_smoothNumbers'.mpr fun p hp hpq => by
    rw [(Nat.prime_dvd_prime_iff_eq hp hq).mp hpq]
    exact hq6
  refine ⟨⟨hs.le, hs.int, ⟨c * q, Nat.mul_mem_smoothNumbers hc hfast, ?_⟩, ?_, hs.least⟩, ?_⟩
  · rw [Nat.mul_assoc, hdvd]
    exact hn
  · exact Nat.div_pos (Nat.le_of_dvd hs.pos (Nat.dvd_of_mod_eq_zero hmod)) hq.pos
  · exact Nat.div_lt_self hs.pos hq.one_lt

/-- A rest that two, three and five do not divide has a prime factor above them. -/
theorem not_fast_of_rest {m c : ℕ} (hm : 1 < m) (h2 : m % 2 ≠ 0) (h3 : m % 3 ≠ 0) (h5 : m % 5 ≠ 0) :
    c * m ∉ Nat.smoothNumbers 6 := by
  intro hfast
  have hprime := Nat.minFac_prime (show m ≠ 1 by omega)
  have hdvd := Nat.minFac_dvd m
  have hlt := Nat.mem_smoothNumbers'.mp hfast m.minFac hprime (hdvd.mul_left c)
  have hmod := Nat.mod_eq_zero_of_dvd hdvd
  generalize m.minFac = q at hprime hlt hmod
  interval_cases q
  · exact absurd hprime (by decide)
  · exact absurd hprime (by decide)
  · exact h2 hmod
  · exact h3 hmod
  · exact absurd hprime (by decide)
  · exact h5 hmod

/-- How far the search is from the largest `int`. -/
def nextFastRank (s : NextFast) : ℕ := (2 ^ 31 - s.n) * 2 ^ 31 + s.m

/-- What `kiss_fft_next_fast_size` comes to: the least fast size, or the overflow where no fast size is an `int`. -/
def NextFastEnd (n : ℕ) : Outcome NextFast → Prop
  | .ended s => IsLeast (fastSizes n) s.n ∧ (s.n : ℤ) ≤ CInt.intMax
  | .undefined => ∀ k ∈ fastSizes n, CInt.intMax < (k : ℤ)

/-- **One turn of `kiss_fft_next_fast_size`.** -/
theorem nextFastTurn_spec {n : ℕ} (s : NextFast) (hs : NextFastInv n s) :
    TurnSpec (NextFastInv n) nextFastRank (NextFastEnd n) s (nextFastTurn s) := by
  unfold nextFastTurn
  split_ifs with h2 h3 h5 hone hmax
  · exact (hs.divide Nat.prime_two (by decide) h2).imp_right fun h => Nat.add_lt_add_left h _
  · exact (hs.divide Nat.prime_three (by decide) h3).imp_right fun h => Nat.add_lt_add_left h _
  · exact (hs.divide Nat.prime_five (by decide) h5).imp_right fun h => Nat.add_lt_add_left h _
  · obtain ⟨c, hc, hn⟩ := hs.rest
    rw [show s.m = 1 by have := hs.pos; omega, Nat.mul_one] at hn
    exact ⟨⟨⟨hs.le, hn ▸ hc⟩, hs.least⟩, hs.int⟩
  all_goals
    obtain ⟨c, hc, hn⟩ := hs.rest
    have hnot : s.n ∉ Nat.smoothNumbers 6 := hn ▸ not_fast_of_rest (by omega) h2 h3 h5
    have hleast : ∀ k ∈ fastSizes n, s.n + 1 ≤ k := fun k hk =>
      lt_of_le_of_ne (hs.least k hk) fun heq => hnot (heq ▸ hk.2)
  · intro k hk
    have hlt := hleast k hk
    omega
  · have hint : (s.n : ℤ) ≤ 2147483647 := hs.int
    have hne : (s.n : ℤ) ≠ 2147483647 := hmax
    have hle : (s.n + 1 : ℤ) ≤ 2147483647 := by omega
    refine ⟨⟨Nat.le_succ_of_le hs.le, hle, ⟨1, one_mem_smoothNumbers, by simp⟩, Nat.succ_pos _, hleast⟩, ?_⟩
    have hstep : 2 ^ 31 - s.n = 2 ^ 31 - (s.n + 1) + 1 := by omega
    simp only [nextFastRank, hstep, Nat.succ_mul]
    omega

/-- **The next fast size.** From a positive `int` that is at most the largest fast size, the loops of
`kiss_fft_next_fast_size` end, at the least size from it on whose prime factors are two, three and five; from any
larger `int`, `n++` overflows; and from zero the loops do not end. -/
theorem nextFast_spec (n : ℕ) (hint : (n : ℤ) ≤ CInt.intMax) :
    (0 < n → n ≤ maxFastSize → ∃ s, Yields nextFastTurn ⟨n, n⟩ (.ended s) ∧ IsLeast (fastSizes n) s.n) ∧
    (maxFastSize < n → Yields nextFastTurn ⟨n, n⟩ .undefined) ∧
    ∀ o, ¬ Yields nextFastTurn ⟨0, 0⟩ o := by
  have hstops : 0 < n → ∃ o, Yields nextFastTurn ⟨n, n⟩ o ∧ NextFastEnd n o := fun hn =>
    yields_of_variant nextFastRank nextFastTurn_spec
      ⟨le_rfl, hint, ⟨1, one_mem_smoothNumbers, by simp⟩, hn, fun k hk => hk.1⟩
  refine ⟨fun hn hle => ?_, fun hlt => ?_, ?_⟩
  · obtain ⟨o, ho, hend⟩ := hstops hn
    cases o with
    | ended s => exact ⟨s, ho, hend.1⟩
    | undefined => exact absurd (hend maxFastSize ⟨hle, maxFastSize_mem⟩) (by decide)
  · obtain ⟨o, ho, hend⟩ := hstops (by omega)
    cases o with
    | ended s =>
        have hle := le_maxFastSize hend.1.1.2 hend.2
        exact absurd (hlt.trans_le hend.1.1.1) (not_lt.mpr hle)
    | undefined => exact ho
  · rintro o ⟨fuel, hfuel⟩
    induction fuel with
    | zero => exact Option.some_ne_none o hfuel.symm
    | succ fuel ih => exact ih hfuel

/-- From `97` on, `100` is fast; from `2125764001` on, no `int` is. -/
theorem nextFast_spec_97 :
    (∃ s, Yields nextFastTurn ⟨97, 97⟩ (.ended s) ∧ IsLeast (fastSizes 97) s.n) ∧
    Yields nextFastTurn ⟨2125764001, 2125764001⟩ .undefined :=
  ⟨(nextFast_spec 97 (by decide)).1 (by decide) (by decide),
    (nextFast_spec 2125764001 (by decide)).2.1 (by decide)⟩

end AudioProcess
