import Mathlib.Analysis.InnerProductSpace.PiL2
import AudioProcess.Apm.QmfStream
import AudioProcess.Lib.Transfer

/-!
# Splitting and merging

A signal that is split into two bands and merged again comes back through an all-pass filter, up to a few units: the
rounding of the bands and of the products, through the gains of the sections.

* `cascadeTransfer`, `qmfTransfer`: the ideal cascade, and the ideal filter bank on every other sample;
* `cascade_near`: how far the cascade on integers is from the ideal one;
* `Unclipped`: the two bands are not clipped at a sample; `unclipped_of_quiet`: so it is for signals of at most `3400`;
* `sum_sq_qmf_le`: the ideal filter bank is all-pass;
* **`reconstruct_near`**: what comes out is the ideal filter's output, clipped, up to `13`, and has no more energy.
-/

namespace AudioProcess

open Allpass CInt PowerSeries

/-! ## The ideal filter bank -/

/-- The ideal cascade. -/
noncomputable def cascadeTransfer (a : Fin 3 → ℤ) : ℝ⟦X⟧ := ∏ i, transfer (a i / q16)

/-- What becomes of every other sample in an ideal filter bank. -/
noncomputable def qmfTransfer : ℝ⟦X⟧ := cascadeTransfer kAllPassFilter1 * cascadeTransfer kAllPassFilter2

/-- The error of a section with coefficient `A / 2 ^ 16` on a signal that is given up to `E`. -/
noncomputable def sectionError (A : ℤ) (E : ℝ) : ℝ := (1 + A / q16 + A / q16) * E + 1 / (1 - A / q16)

/-- The error of a cascade. -/
noncomputable def cascadeError (a : Fin 3 → ℤ) (E : ℝ) : ℝ := Fin.foldl 3 (fun E i => sectionError (a i) E) E

theorem cascadeTransfer_mul (a : Fin 3 → ℤ) (φ : ℝ⟦X⟧) : cascadeTransfer a * φ =
    transfer (a 2 / q16) * (transfer (a 1 / q16) * (transfer (a 0 / q16) * φ)) := by
  rw [cascadeTransfer, Fin.prod_univ_three]
  ring

theorem cascadeError_eq (a : Fin 3 → ℤ) (E : ℝ) :
    cascadeError a E = sectionError (a 2) (sectionError (a 1) (sectionError (a 0) E)) := by
  simp [cascadeError, Fin.foldl_succ]

theorem signal_coeff (φ : ℝ⟦X⟧) : signal (fun k => coeff k φ) = φ := by
  ext k
  simp [signal]

/-- **The error of the cascade on integers.** -/
theorem cascade_near {a : Fin 3 → ℤ} (ha : ∀ i, 0 ≤ a i ∧ a i < q16) {E : ℝ} (hE : 0 ≤ E) {N : ℕ} {x : ℕ → ℤ}
    {u : ℕ → ℝ} (hx : ∀ k < N, |(x k : ℝ) - u k| ≤ E) {k : ℕ} (hk : k < N) :
    |(cascade a .zero x k : ℝ) - coeff k (cascadeTransfer a * signal u)| ≤ cascadeError a E := by
  have hpos : ∀ i {E : ℝ}, 0 ≤ E → 0 ≤ sectionError (a i) E := by
    intro i E hE
    have h₀ : (0 : ℝ) ≤ (a i : ℝ) / (q16 : ℤ) := div_nonneg (by exact_mod_cast (ha i).1) (by norm_num)
    have h₁ : (a i : ℝ) / (q16 : ℤ) < 1 := by
      rw [div_lt_one (by norm_num)]
      exact_mod_cast (ha i).2
    unfold sectionError
    have : 0 < 1 - (a i : ℝ) / (q16 : ℤ) := by linarith
    positivity
  have hsection : ∀ i {E : ℝ} {x : ℕ → ℤ} {u : ℕ → ℝ}, 0 ≤ E → (∀ k < N, |(x k : ℝ) - u k| ≤ E) →
      ∀ k < N, |(filtered q16 (a i) ⟨0, 0⟩ x k : ℝ) - coeff k (transfer (a i / q16) * signal u)| ≤
        sectionError (a i) E := by
    intro i E x u hE hx k hk
    rw [sectionError, add_assoc (1 : ℝ), ← two_mul]
    exact filtered_near (by decide) (ha i).1 (ha i).2 hE hx hk
  have hthird := hsection 2 (hpos 1 (hpos 0 hE)) (hsection 1 (hpos 0 hE) (hsection 0 hE hx)) k hk
  rw [signal_coeff, signal_coeff] at hthird
  rw [cascadeTransfer_mul, cascadeError_eq]
  exact hthird

theorem coeff_scale (φ : ℝ⟦X⟧) (c : ℝ) (u : ℕ → ℝ) (k : ℕ) :
    coeff k (φ * signal fun i => c * u i) = c * coeff k (φ * signal u) := by
  have hscale : signal (fun i => c * u i) = C c * signal u := by
    ext i
    simp [signal]
  rw [hscale, mul_left_comm, coeff_C_mul]

/-! ## Rounding and clipping -/

/-- A number clipped to 16 bits. -/
noncomputable def clamp (r : ℝ) : ℝ := max (-32768 : ℤ) (min (32767 : ℤ) r)

theorem clamp_near (r t : ℝ) : |clamp r - clamp t| ≤ |r - t| := by
  unfold clamp
  rw [max_comm, max_comm _ (min _ t), min_comm, min_comm _ t]
  refine (abs_max_sub_max_le_abs _ _ _).trans ((abs_min_sub_min_le_max _ _ _ _).trans ?_)
  simp

theorem toInt_satW32ToW16 (v : ℤ) : (satW32ToW16 v).toInt = max (-32768) (min 32767 v) := by
  unfold satW32ToW16
  split_ifs with hhigh hlow
  · rw [min_eq_left (by omega)]
    decide
  · rw [min_eq_right (by omega), max_eq_left (by omega)]
    decide
  · rw [Int16.toInt_ofInt_of_le (by omega) (by omega), min_eq_right (by omega), max_eq_right (by omega)]

theorem clamp_intCast (v : ℤ) : clamp v = ((satW32ToW16 v).toInt : ℝ) := by
  rw [toInt_satW32ToW16]
  simp [clamp]

/-- A sample that is rounded from Q10 and clipped. -/
theorem clamp_round {c : ℤ} {v E : ℝ} (h : |(c : ℝ) - (1024 : ℤ) * v| ≤ E) :
    |((satW32ToW16 ((c + 512) / 2 ^ 10)).toInt : ℝ) - clamp v| ≤ (E + (512 : ℤ)) / (1024 : ℤ) := by
  rw [← clamp_intCast]
  refine (clamp_near _ _).trans ?_
  obtain ⟨q, hq⟩ : ∃ q, q = (c + 512) / 2 ^ 10 := ⟨_, rfl⟩
  have hlow : 1024 * q - c ≤ 512 := by omega
  have hhigh : c - 1024 * q ≤ 512 := by omega
  have hlow' : (1024 : ℝ) * q - c ≤ 512 := by exact_mod_cast hlow
  have hhigh' : (c : ℝ) - 1024 * q ≤ 512 := by exact_mod_cast hhigh
  rw [← hq, abs_le]
  rw [abs_le] at h
  push_cast at h ⊢
  constructor
  · rw [neg_le, le_div_iff₀ (by norm_num)]
    linarith
  · rw [le_div_iff₀ (by norm_num)]
    linarith

/-! ## The filter bank on integers -/

/-- Neither band is clipped at a sample. -/
structure Unclipped (x : ℕ → Int16) (i : ℕ) : Prop where
  low : (cascade kAllPassFilter1 .zero (oddHalf x) i + cascade kAllPassFilter2 .zero (evenHalf x) i + 1024) / 2 ^ 11 ∈
    Set.Icc (-32768) 32767
  high : (cascade kAllPassFilter1 .zero (oddHalf x) i - cascade kAllPassFilter2 .zero (evenHalf x) i + 1024) / 2 ^ 11 ∈
    Set.Icc (-32768) 32767

section Bank

variable {x low high : ℕ → Int16}

/-- The sum and the difference of the bands are the two branches, up to the rounding of the bands. -/
theorem Unclipped.near {i : ℕ} (h : Unclipped x i) (hlow : low i = lowBandOf .zero x i)
    (hhigh : high i = highBandOf .zero x i) :
    |sumHalf low high i - cascade kAllPassFilter1 .zero (oddHalf x) i| ≤ 1024 ∧
      |diffHalf low high i - cascade kAllPassFilter2 .zero (evenHalf x) i| ≤ 1024 := by
  obtain ⟨⟨hl, hl'⟩, hh, hh'⟩ := h
  rw [sumHalf, diffHalf, hlow, hhigh, lowBandOf, highBandOf, toInt_satW32ToW16, toInt_satW32ToW16]
  simp only [Branches.zero]
  rw [min_eq_right hl', max_eq_right hl, min_eq_right hh', max_eq_right hh, abs_le, abs_le]
  omega

theorem kAllPassFilter1_mem (i : Fin 3) : 0 ≤ kAllPassFilter1 i ∧ kAllPassFilter1 i < q16 := by
  revert i
  decide

theorem kAllPassFilter2_mem (i : Fin 3) : 0 ≤ kAllPassFilter2 i ∧ kAllPassFilter2 i < q16 := by
  revert i
  decide

/-- A half of the samples. -/
def samplesOf (x : ℕ → Int16) (r i : ℕ) : ℝ := (x (2 * i + r)).toInt

/-- A branch of the analysis, given up to `1024`, and the other branch of the synthesis after it. -/
theorem branch_near {a b : Fin 3 → ℤ} (ha : ∀ i, 0 ≤ a i ∧ a i < q16) (hb : ∀ i, 0 ≤ b i ∧ b i < q16) {y z : ℕ → ℤ}
    {u : ℕ → ℝ} {N : ℕ} (hy : ∀ i, (y i : ℝ) = (1024 : ℤ) * u i) (hz : ∀ i < N, |z i - cascade a .zero y i| ≤ 1024)
    {k : ℕ} (hk : k < N) :
    |(cascade b .zero z k : ℝ) - (1024 : ℤ) * coeff k (cascadeTransfer a * cascadeTransfer b * signal u)| ≤
      cascadeError b ((1024 : ℤ) + cascadeError a 0) := by
  have hone : ∀ i < N, |(cascade a .zero y i : ℝ) -
      coeff i (cascadeTransfer a * signal fun i => (1024 : ℤ) * u i)| ≤ cascadeError a 0 := fun i hi =>
    cascade_near ha le_rfl (fun j _ => by simp [hy]) hi
  have hsum : ∀ i < N, |(z i : ℝ) - coeff i (cascadeTransfer a * signal fun i => (1024 : ℤ) * u i)| ≤
      (1024 : ℤ) + cascadeError a 0 := by
    intro i hi
    refine (abs_sub_le _ (cascade a .zero y i : ℝ) _).trans (add_le_add ?_ (hone i hi))
    exact_mod_cast hz i hi
  have htwo := cascade_near hb ((abs_nonneg _).trans (hsum k hk)) hsum hk
  rwa [signal_coeff, ← mul_assoc, coeff_scale, mul_comm (cascadeTransfer b)] at htwo

theorem error_odd : (cascadeError kAllPassFilter2 ((1024 : ℤ) + cascadeError kAllPassFilter1 0) + (512 : ℤ)) /
    (1024 : ℤ) ≤ (13 : ℤ) := by
  simp only [cascadeError_eq, sectionError, kAllPassFilter1, kAllPassFilter2, q16, Matrix.cons_val]
  norm_num

theorem error_even : (cascadeError kAllPassFilter1 ((1024 : ℤ) + cascadeError kAllPassFilter2 0) + (512 : ℤ)) /
    (1024 : ℤ) ≤ (13 : ℤ) := by
  simp only [cascadeError_eq, sectionError, kAllPassFilter1, kAllPassFilter2, q16, Matrix.cons_val]
  norm_num

/-- **The full band of the two bands** is the ideal filter's output, clipped, up to `13`. -/
theorem fullBandOf_near {N : ℕ} (hclip : ∀ i < N, Unclipped x i) (hlow : ∀ i < N, low i = lowBandOf .zero x i)
    (hhigh : ∀ i < N, high i = highBandOf .zero x i) {k : ℕ} (hk : k < 2 * N) :
    |((fullBandOf .zero low high k).toInt : ℝ) -
        clamp (coeff (k / 2) (qmfTransfer * signal (samplesOf x (k % 2))))| ≤ (13 : ℤ) := by
  have hnear := fun i hi => (hclip i hi).near (hlow i hi) (hhigh i hi)
  rcases Nat.mod_two_eq_zero_or_one k with hr | hr
  · obtain ⟨i, rfl⟩ : ∃ i, k = 2 * i := ⟨k / 2, by omega⟩
    rw [fullBandOf_even, hr, Nat.mul_div_cancel_left i (by decide)]
    have hout := branch_near kAllPassFilter2_mem kAllPassFilter1_mem (y := evenHalf x) (u := samplesOf x 0)
      (fun j => by simp [evenHalf, samplesOf, mul_comm]) (fun i hi => (hnear i hi).2) (show i < N by omega)
    rw [mul_comm (cascadeTransfer kAllPassFilter2)] at hout
    exact (clamp_round hout).trans error_even
  · obtain ⟨i, rfl⟩ : ∃ i, k = 2 * i + 1 := ⟨k / 2, by omega⟩
    rw [fullBandOf_odd, hr, show (2 * i + 1) / 2 = i by omega]
    have hout := branch_near kAllPassFilter1_mem kAllPassFilter2_mem (y := oddHalf x) (u := samplesOf x 1)
      (fun j => by simp [oddHalf, samplesOf, mul_comm]) (fun i hi => (hnear i hi).1) (show i < N by omega)
    exact (clamp_round hout).trans error_odd

end Bank

/-! ## Quiet signals -/

/-- The bounds for `WebRtcSpl_kAllPassFilter1` on samples of at most `3400`. -/
def quietBounds1 : CascadeBounds := ⟨3400 * 2 ^ 10, 4163514, 8862463, 24349333, bounds1.rounding⟩

/-- The bounds for `WebRtcSpl_kAllPassFilter2` on samples of at most `3400`. -/
def quietBounds2 : CascadeBounds := ⟨3400 * 2 ^ 10, 5748233, 14354799, 41957849, bounds2.rounding⟩

theorem fits_quietBounds1 : CascadeFits kAllPassFilter1 quietBounds1 := by
  refine ⟨⟨?_, ?_, ?_, ?_, ?_⟩, ⟨?_, ?_, ?_, ?_, ?_⟩, ⟨?_, ?_, ?_, ?_, ?_⟩⟩ <;> decide

theorem fits_quietBounds2 : CascadeFits kAllPassFilter2 quietBounds2 := by
  refine ⟨⟨?_, ?_, ?_, ?_, ?_⟩, ⟨?_, ?_, ?_, ?_, ?_⟩, ⟨?_, ?_, ?_, ?_, ?_⟩⟩ <;> decide

/-- The bands of a quiet signal are not clipped. -/
theorem unclipped_of_quiet {x : ℕ → Int16} (hx : ∀ k, |(x k).toInt| ≤ 3400) (i : ℕ) : Unclipped x i := by
  have hodd := fits_quietBounds1.output_le (n := i + 1) (x := oddHalf x)
    (within_zero fits_quietBounds1 (by decide) (by decide) (by decide) (by decide))
    (fun k _ => by
      have := abs_le.mp (hx (2 * k + 1))
      rw [abs_le, oddHalf, quietBounds1]
      constructor <;> simp only <;> omega) i.lt_succ_self
  have heven := fits_quietBounds2.output_le (n := i + 1) (x := evenHalf x)
    (within_zero fits_quietBounds2 (by decide) (by decide) (by decide) (by decide))
    (fun k _ => by
      have := abs_le.mp (hx (2 * k))
      rw [abs_le, evenHalf, quietBounds2]
      constructor <;> simp only <;> omega) i.lt_succ_self
  rw [abs_le] at hodd heven
  simp only [quietBounds1, quietBounds2] at hodd heven
  constructor <;> rw [Set.mem_Icc] <;> omega

/-! ## Energy -/

/-- The energy of a signal. -/
def energy (l : List Int16) : ℝ := ∑ k ∈ Finset.range l.length, ((cellsOf l k).toInt : ℝ) ^ 2

theorem sum_range_halves (f : ℕ → ℝ) (n : ℕ) : ∑ k ∈ Finset.range (2 * n), f k =
    ∑ i ∈ Finset.range n, f (2 * i) + ∑ i ∈ Finset.range n, f (2 * i + 1) := by
  induction n with
  | zero => simp
  | succ n ih =>
      rw [Nat.mul_succ, Finset.sum_range_succ, Finset.sum_range_succ, ih, Finset.sum_range_succ, Finset.sum_range_succ]
      ring

theorem sum_sq_cascade_le {a : Fin 3 → ℤ} (ha : ∀ i, 0 ≤ a i ∧ a i < q16) (u : ℝ⟦X⟧) (n : ℕ) :
    ∑ k ∈ Finset.range n, coeff k (cascadeTransfer a * u) ^ 2 ≤ ∑ k ∈ Finset.range n, coeff k u ^ 2 := by
  have habs : ∀ i, |(a i : ℝ) / (q16 : ℤ)| ≤ 1 := fun i => by
    have hpos : (0 : ℝ) ≤ a i := by exact_mod_cast (ha i).1
    have hlt : (a i : ℝ) < (q16 : ℤ) := by exact_mod_cast (ha i).2
    rw [abs_of_nonneg (div_nonneg hpos (hpos.trans hlt.le))]
    exact div_le_one_of_le₀ hlt.le (hpos.trans hlt.le)
  rw [cascadeTransfer_mul]
  exact (sum_sq_transfer_le (habs 2) _ n).trans ((sum_sq_transfer_le (habs 1) _ n).trans (sum_sq_transfer_le (habs 0) u n))

/-- The ideal filter bank is all-pass. -/
theorem sum_sq_qmf_le (u : ℝ⟦X⟧) (n : ℕ) :
    ∑ k ∈ Finset.range n, coeff k (qmfTransfer * u) ^ 2 ≤ ∑ k ∈ Finset.range n, coeff k u ^ 2 := by
  rw [qmfTransfer, mul_assoc]
  exact (sum_sq_cascade_le kAllPassFilter1_mem _ n).trans (sum_sq_cascade_le kAllPassFilter2_mem u n)

theorem abs_clamp_le (r : ℝ) : |clamp r| ≤ |r| := by
  have h := clamp_near r 0
  have hzero : clamp 0 = 0 := by simp [clamp]
  rwa [hzero, sub_zero, sub_zero] at h

/-- Signals that are within `c` of each other at each of `n` samples. -/
theorem sqrt_sum_sq_le {n : ℕ} {f g : ℕ → ℝ} {c : ℝ} (hc : 0 ≤ c) (h : ∀ k < n, |f k - g k| ≤ c) :
    √(∑ k ∈ Finset.range n, f k ^ 2) ≤ √(∑ k ∈ Finset.range n, g k ^ 2) + c * √n := by
  have hnorm : ∀ f : ℕ → ℝ, √(∑ k ∈ Finset.range n, f k ^ 2) = ‖WithLp.toLp 2 fun k : Fin n => f k‖ := fun f => by
    simp [EuclideanSpace.norm_eq, Finset.sum_range]
  have hdiff : ‖WithLp.toLp 2 fun k : Fin n => f k - g k‖ ≤ c * √n := by
    rw [← hnorm fun k => f k - g k]
    refine (Real.sqrt_le_sqrt (Finset.sum_le_sum fun k hk => ?_)).trans_eq (b := √(∑ _k ∈ Finset.range n, c ^ 2)) ?_
    · rw [← sq_abs]
      exact pow_le_pow_left₀ (abs_nonneg _) (h k (Finset.mem_range.mp hk)) 2
    · rw [Finset.sum_const, Finset.card_range, nsmul_eq_mul, mul_comm, Real.sqrt_mul (sq_nonneg c), Real.sqrt_sq hc]
  rw [hnorm f, hnorm g]
  have hsplit : (WithLp.toLp 2 fun k : Fin n => f k) =
      (WithLp.toLp 2 fun k : Fin n => g k) + WithLp.toLp 2 fun k : Fin n => f k - g k := by
    ext k
    simp
  rw [hsplit]
  exact (norm_add_le _ _).trans (add_le_add le_rfl hdiff)

/-! ## Streams -/

/-- What is within `13` of the filtered signal has its energy, up to `13` a sample. -/
theorem energy_le_of_near {l out : List Int16} {m : ℕ} (hl : l.length = 2 * m) (hout : out.length = 2 * m)
    (h : ∀ k < 2 * m, |((cellsOf out k).toInt : ℝ) -
      clamp (coeff (k / 2) (qmfTransfer * signal (samplesOf (cellsOf l) (k % 2))))| ≤ (13 : ℤ)) :
    √(energy out) ≤ √(energy l) + (13 : ℤ) * √out.length := by
  rw [energy, energy, hl, hout]
  refine (sqrt_sum_sq_le (by norm_num) h).trans (add_le_add (Real.sqrt_le_sqrt ?_) le_rfl)
  have hhalf : ∀ r, ∑ i ∈ Finset.range m, coeff i (qmfTransfer * signal (samplesOf (cellsOf l) r)) ^ 2 ≤
      ∑ i ∈ Finset.range m, ((cellsOf l (2 * i + r)).toInt : ℝ) ^ 2 := fun r => by
    simpa [signal, samplesOf] using sum_sq_qmf_le (signal (samplesOf (cellsOf l) r)) m
  calc ∑ k ∈ Finset.range (2 * m), clamp (coeff (k / 2) (qmfTransfer * signal (samplesOf (cellsOf l) (k % 2)))) ^ 2
      ≤ ∑ k ∈ Finset.range (2 * m), coeff (k / 2) (qmfTransfer * signal (samplesOf (cellsOf l) (k % 2))) ^ 2 :=
        Finset.sum_le_sum fun k _ => sq_le_sq.mpr (abs_clamp_le _)
    _ = ∑ i ∈ Finset.range m, coeff i (qmfTransfer * signal (samplesOf (cellsOf l) 0)) ^ 2 +
          ∑ i ∈ Finset.range m, coeff i (qmfTransfer * signal (samplesOf (cellsOf l) 1)) ^ 2 := by
        rw [sum_range_halves]
        simp [show ∀ i, (2 * i + 1) / 2 = i by omega, show ∀ i, (2 * i + 1) % 2 = 1 by omega]
    _ ≤ ∑ i ∈ Finset.range m, ((cellsOf l (2 * i + 0)).toInt : ℝ) ^ 2 +
          ∑ i ∈ Finset.range m, ((cellsOf l (2 * i + 1)).toInt : ℝ) ^ 2 := add_le_add (hhalf 0) (hhalf 1)
    _ = ∑ k ∈ Finset.range (2 * m), ((cellsOf l k).toInt : ℝ) ^ 2 := by rw [sum_range_halves]; rfl

/-- **The full band of the bands of a whole signal.** -/
theorem fullSignal_near {l : List Int16} {m : ℕ} (hl : l.length = 2 * m) (hclip : ∀ i < m, Unclipped (cellsOf l) i) :
    (fullSignal .zero (lowSignal .zero l) (highSignal .zero l)).length = 2 * m ∧ ∀ k < 2 * m,
      |((cellsOf (fullSignal .zero (lowSignal .zero l) (highSignal .zero l)) k).toInt : ℝ) -
        clamp (coeff (k / 2) (qmfTransfer * signal (samplesOf (cellsOf l) (k % 2))))| ≤ (13 : ℤ) := by
  have hhalf : l.length / 2 = m := by omega
  have hlen : (lowSignal .zero l).length = m := by rw [lowSignal, List.length_map, List.length_range, hhalf]
  refine ⟨by rw [fullSignal, List.length_map, List.length_range, hlen], fun k hk => ?_⟩
  rw [fullSignal, cellsOf_map_range _ (by omega)]
  refine fullBandOf_near hclip (fun i hi => ?_) (fun i hi => ?_) hk
  · rw [lowSignal, cellsOf_map_range _ (by omega)]
  · rw [highSignal, cellsOf_map_range _ (by omega)]

/-- **Splitting and merging.** A stream is split into two bands frame by frame, and the bands are merged, with frames
that may be cut differently. Where the bands are not clipped, every sample that comes out is that of the all-pass filter
`qmfTransfer` on every other sample, clipped, up to `13`; and so the norm of the signal does not grow, up to `13` for
each sample. -/
theorem reconstruct_near (frames : List (QmfLocals × List Int16)) (bands : List (QmfLocals × List Int16 × List Int16))
    (hframes : ∀ f ∈ frames, IsFrame f.2) (hbands : ∀ f ∈ bands, AreBands f.2.1 f.2.2)
    (hclip : ∀ i, 2 * i < (signalOf frames).length → Unclipped (cellsOf (signalOf frames)) i)
    (hsplit : (analysisFrames .zero frames).map Prod.snd = some (lowOf bands, highOf bands)) :
    ∃ out, (synthesisFrames .zero bands).map Prod.snd = some out ∧ out.length = (signalOf frames).length ∧
      (∀ k < out.length, |((cellsOf out k).toInt : ℝ) - clamp (coeff (k / 2)
        (qmfTransfer * signal (samplesOf (cellsOf (signalOf frames)) (k % 2))))| ≤ (13 : ℤ)) ∧
      √(energy out) ≤ √(energy (signalOf frames)) + (13 : ℤ) * √out.length := by
  obtain ⟨m, hm, hrun⟩ := analysisFrames_spec Branches.analysing_zero hframes
  rw [hrun, Option.map_some, Option.some.injEq, Prod.mk.injEq] at hsplit
  obtain ⟨hlow, hhigh⟩ := hsplit
  obtain ⟨hout, hnear⟩ := fullSignal_near hm fun i hi => hclip i (by omega)
  rw [hlow, hhigh] at hout hnear
  refine ⟨fullSignal .zero (lowOf bands) (highOf bands), ?_, hout.trans hm.symm, ?_, energy_le_of_near hm hout hnear⟩
  · rw [synthesisFrames_spec Branches.synthesising_zero hbands]
    rfl
  · rw [hout]
    exact hnear

/-- A quiet signal in two frames, and its bands in one. -/
theorem reconstruct_near_quiet : ∃ out, (synthesisFrames .zero
      [(⟨fun _ => 1, fun _ => 2, fun _ => 3, fun _ => 4⟩, lowSignal .zero [100, 200, 300, -400],
        highSignal .zero [100, 200, 300, -400])]).map Prod.snd = some out ∧ out.length = 4 ∧
    (∀ k < out.length, |((cellsOf out k).toInt : ℝ) - clamp (coeff (k / 2)
      (qmfTransfer * signal (samplesOf (cellsOf [100, 200, 300, -400]) (k % 2))))| ≤ (13 : ℤ)) ∧
    √(energy out) ≤ √(energy [100, 200, 300, -400]) + (13 : ℤ) * √out.length := by
  have hframes : ∀ f ∈ ([(⟨fun _ => 0, fun _ => 0, fun _ => 0, fun _ => 0⟩, [100, 200]),
      (⟨fun _ => 5, fun _ => 6, fun _ => 7, fun _ => 8⟩, [300, -400])] : List (QmfLocals × List Int16)),
      IsFrame f.2 := by
    intro f hf
    rcases List.mem_pair.mp hf with rfl | rfl <;> exact ⟨1, by decide, by decide, rfl⟩
  refine reconstruct_near _ _ hframes (fun f hf => ?_) (fun i _ => unclipped_of_quiet (fun k => ?_) i) ?_
  · obtain rfl := List.mem_singleton.mp hf
    exact ⟨by decide, by decide, by simp [lowSignal, highSignal]⟩
  · change |(cellsOf [100, 200, 300, -400] k).toInt| ≤ 3400
    rcases k with _ | _ | _ | _ | k
    · decide
    · decide
    · decide
    · decide
    · exact (by decide : |(0 : Int16).toInt| ≤ 3400)
  · obtain ⟨m, -, hrun⟩ := analysisFrames_spec Branches.analysing_zero hframes
    rw [hrun]
    rfl

end AudioProcess
