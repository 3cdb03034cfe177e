import AudioProcess.Fft.Transform

/-!
# The real transforms

`kiss_fftr` and `kiss_fftri` of `2 * n` samples work on `n` complex numbers.

* `RealLength`: the lengths whose sizes stay in an `int`;
* `RealReady`: a state of `kiss_fftr_alloc`, whatever has been left in its buffer since;
* **`kissFftr_eq_dft`**: `kiss_fftr` computes the first `n + 1` bins of the transform;
* `hermitian`: all bins, from those that `kiss_fftri` reads; **`kissFftri_eq_dft`**: `kiss_fftri` computes the samples;
* **`kissFftri_kissFftr`**: they undo each other, up to the number of samples.
-/

namespace AudioProcess

open CFloat CLoop Complex Dft Finset

variable {n : ℕ}

/-! ## The state -/

/-- The numbers `n` of pairs of samples at which `kiss_fftr` works. -/
structure RealLength (n : ℕ) : Prop where
  pos : 0 < n
  /-- The largest `int` that comes up is `nfft * 3` in `kiss_fftr_alloc`, where `nfft` is `n`. -/
  int : 3 * (n : ℤ) ≤ CInt.intMax

/-- A state that `kiss_fftr_alloc` makes for `2 * n` samples. -/
structure RealReady (n : ℕ) (inverse : Bool) (st : KissFftrState ℝ) : Prop where
  substate : ∃ junk, st.substate = kissFftAlloc n inverse junk
  superTwiddles : ∀ i < n / 2,
    (st.superTwiddles i).toC = (if inverse then I else -I) * fftRoot inverse (2 * n) ^ (i + 1)

theorem RealReady.of_alloc {n : ℕ} (hn : 0 < n) (inverse : Bool) (junk : KissFftrState ℝ) :
    ∃ st, Fft.kissFftrAlloc (2 * n) inverse junk = some st ∧ RealReady n inverse st := by
  have hodd : ¬ 2 * n % 2 = 1 := by omega
  have hhalf : 2 * n / 2 = n := by omega
  have hn₀ : (n : ℂ) ≠ 0 := by exact_mod_cast hn.ne'
  unfold Fft.kissFftrAlloc
  rw [if_neg hodd]
  refine ⟨_, rfl, ⟨⟨junk.substate.twiddles, by dsimp only; rw [hhalf]⟩, fun i hi => ?_⟩⟩
  simp only [hhalf, forLoop_set, if_pos hi, toC_kfCexp, fftRoot_pow]
  cases inverse
  · have hquarter : -I = exp (-(Real.pi / 2 * I)) := by rw [exp_neg, exp_pi_div_two_mul_I, inv_I]
    simp only [Bool.false_eq_true, if_false]
    rw [hquarter, ← exp_add]
    congr 1
    simp
    field_simp
    ring
  · have hquarter : I = exp (Real.pi / 2 * I) := exp_pi_div_two_mul_I.symm
    simp only [if_true]
    conv_rhs => rw [hquarter]
    rw [← exp_add]
    congr 1
    simp
    field_simp
    ring

/-- Some state of `kiss_fftr_alloc`. -/
theorem exists_ready {n : ℕ} (hn : 0 < n) (inverse : Bool) : ∃ st, RealReady n inverse st := by
  obtain ⟨st, -, hst⟩ := RealReady.of_alloc hn inverse
    ⟨⟨0, false, [], fun _ => ⟨0, 0⟩⟩, fun _ => ⟨0, 0⟩, fun _ => ⟨0, 0⟩⟩
  exact ⟨st, hst⟩

/-! ## The roots -/

theorem conj_fftRoot (inverse : Bool) (hn : 0 < n) :
    starRingEnd ℂ (fftRoot inverse n) = (fftRoot inverse n)⁻¹ :=
  (inv_eq_conj (norm_eq_one_of_pow_eq_one (isPrimitiveRoot_fftRoot inverse hn).pow_eq_one hn.ne')).symm

theorem fftRoot_sq (inverse : Bool) (hn : 0 < n) : fftRoot inverse (2 * n) ^ 2 = fftRoot inverse n := by
  have hn₀ : (n : ℂ) ≠ 0 := by exact_mod_cast hn.ne'
  rw [fftRoot_pow, ← pow_one (fftRoot inverse n), fftRoot_pow]
  congr 1
  push_cast
  field_simp

theorem fftRoot_half (inverse : Bool) (hn : 0 < n) : fftRoot inverse (2 * n) ^ n = -1 :=
  ((isPrimitiveRoot_fftRoot inverse (show 0 < 2 * n by omega)).pow (by omega)
    (Nat.mul_comm 2 n)).eq_neg_one_of_two_right

/-! ## `kiss_fftr` -/

section Forward

variable (x : ℕ → ℝ)

/-- The bins of `2 * n` real samples. -/
noncomputable def realBins (n : ℕ) (x : ℕ → ℝ) : ℕ → ℂ := dft (fftRoot false (2 * n)) (2 * n) fun j => (x j : ℂ)

/-- The bins of every other sample, from `r` on. -/
noncomputable def halfBins (n : ℕ) (x : ℕ → ℝ) (r : ℕ) : ℕ → ℂ :=
  dft (fftRoot false n) n fun j => (x (2 * j + r) : ℂ)

theorem realBins_eq (hn : 0 < n) (u q : ℕ) : realBins n x (u + q * n) =
    halfBins n x 0 u + fftRoot false (2 * n) ^ (u + q * n) * halfBins n x 1 u := by
  have hroot := (isPrimitiveRoot_fftRoot false (show 0 < 2 * n by omega)).pow_eq_one
  rw [realBins, dft_decimate hroot, fftRoot_sq false hn]
  simp [sum_range_succ, halfBins]

theorem conj_halfBins (hn : 0 < n) (r : ℕ) {k : ℕ} (hk : k ≤ n) :
    starRingEnd ℂ (halfBins n x r k) = halfBins n x r (n - k) :=
  conj_dft_of_real (conj_fftRoot false hn) (isPrimitiveRoot_fftRoot false hn).pow_eq_one (fun _ => conj_ofReal _) hk

theorem conj_realBins (hn : 0 < n) {k : ℕ} (hk : k ≤ 2 * n) :
    starRingEnd ℂ (realBins n x k) = realBins n x (2 * n - k) :=
  conj_dft_of_real (conj_fftRoot false (by omega)) (isPrimitiveRoot_fftRoot false (by omega)).pow_eq_one
    (fun _ => conj_ofReal _) hk

theorem toC_packed (j : ℕ) : (packed x j).toC = x (2 * j + 0) + I * x (2 * j + 1) := by
  apply Complex.ext <;> simp [packed]

/-- The transform of the packed samples. -/
theorem kissFft_packed (hn : 0 < n) (junk fout : ℕ → Cpx ℝ) {k : ℕ} (hk : k < n) :
    (kissFft (kissFftAlloc n false junk) (packed x) fout k).toC = halfBins n x 0 k + I * halfBins n x 1 k := by
  simp only [kissFft_eq_dft hn false junk (packed x) fout hk, toC_packed, dft_add, dft_mul_left, halfBins]

theorem toC_halfOf_add (a b : Cpx ℝ) :
    (⟨halfOf (a.r + b.r), halfOf (a.i + b.i)⟩ : Cpx ℝ).toC = (a.toC + b.toC) / 2 := by
  apply Complex.ext <;> simp [halfOf_real]

theorem toC_halfOf_sub (a b : Cpx ℝ) :
    (⟨halfOf (a.r - b.r), halfOf (b.i - a.i)⟩ : Cpx ℝ).toC = starRingEnd ℂ ((a.toC - b.toC) / 2) := by
  apply Complex.ext
  · rw [conj_re]
    simp [halfOf_real]
  · rw [conj_im]
    simp [halfOf_real]
    ring

theorem toC_conj (a : Cpx ℝ) : (⟨a.r, -a.i⟩ : Cpx ℝ).toC = starRingEnd ℂ a.toC := by
  apply Complex.ext <;> simp

/-- The two bins that one turn of `kiss_fftr` computes. -/
theorem kissFftr_turn (hn : 0 < n) {st : KissFftrState ℝ} (hst : RealReady n false st) {z : ℕ → Cpx ℝ}
    (hz : ∀ k < n, (z k).toC = halfBins n x 0 k + I * halfBins n x 1 k) {k : ℕ} (hk₀ : 0 < k) (hk : k < n / 2 + 1) :
    let fpnk : Cpx ℝ := ⟨(z (n - k)).r, -(z (n - k)).i⟩
    let f1k := (z k).add fpnk
    let tw := ((z k).sub fpnk).mul (st.superTwiddles (k - 1))
    (⟨halfOf (f1k.r + tw.r), halfOf (f1k.i + tw.i)⟩ : Cpx ℝ).toC = realBins n x k ∧
    (⟨halfOf (f1k.r - tw.r), halfOf (tw.i - f1k.i)⟩ : Cpx ℝ).toC = realBins n x (n - k) := by
  intro fpnk f1k tw
  have hfpnk : fpnk.toC = halfBins n x 0 k - I * halfBins n x 1 k := by
    rw [toC_conj, hz (n - k) (by omega), map_add, map_mul, conj_I, conj_halfBins x hn 0 (Nat.sub_le n k),
      conj_halfBins x hn 1 (Nat.sub_le n k), Nat.sub_sub_self (by omega), neg_mul, sub_eq_add_neg]
  have hsuper := hst.superTwiddles (k - 1) (by omega)
  rw [Nat.sub_add_cancel hk₀] at hsuper
  simp only [Bool.false_eq_true, if_false] at hsuper
  have hf1k : f1k.toC = 2 * halfBins n x 0 k := by
    rw [Cpx.toC_add, hz k (by omega), hfpnk]
    ring
  have htw : tw.toC = 2 * (fftRoot false (2 * n) ^ k * halfBins n x 1 k) := by
    rw [Cpx.toC_mul, Cpx.toC_sub, hz k (by omega), hfpnk, hsuper]
    linear_combination (-2 * fftRoot false (2 * n) ^ k * halfBins n x 1 k) * I_sq
  have hbin := realBins_eq x hn k 0
  rw [Nat.zero_mul, Nat.add_zero] at hbin
  have hlow : (f1k.toC + tw.toC) / 2 = realBins n x k := by
    rw [hf1k, htw, hbin]
    ring
  refine ⟨(toC_halfOf_add f1k tw).trans hlow, (toC_halfOf_sub f1k tw).trans ?_⟩
  -- `n + k` is the bin half way around from `k`
  have hopp := realBins_eq x hn k 1
  have hhigh : (f1k.toC - tw.toC) / 2 = realBins n x (k + 1 * n) := by
    rw [hf1k, htw, hopp, Nat.one_mul, pow_add, fftRoot_half false hn]
    ring
  rw [hhigh, conj_realBins x hn (by omega)]
  congr 1
  omega

theorem halfBins_zero (hn : 0 < n) (r : ℕ) : halfBins n x r 0 = (halfBins n x r 0).re := by
  have hperiod : halfBins n x r (0 + n) = halfBins n x r 0 :=
    dft_add_period (isPrimitiveRoot_fftRoot false hn).pow_eq_one _ 0
  have hconj := conj_halfBins x hn r (Nat.zero_le n)
  rw [Nat.zero_add] at hperiod
  rw [Nat.sub_zero, hperiod] at hconj
  exact (conj_eq_iff_re.mp hconj).symm

/-- The first bin of `kiss_fftr`, and the last. -/
theorem kissFftr_ends (hn : 0 < n) {tdc : Cpx ℝ} (htdc : tdc.toC = halfBins n x 0 0 + I * halfBins n x 1 0) :
    (⟨tdc.r + tdc.i, ofRat 0⟩ : Cpx ℝ).toC = realBins n x 0 ∧
    (⟨tdc.r - tdc.i, ofRat 0⟩ : Cpx ℝ).toC = realBins n x n := by
  have h₀ := halfBins_zero x hn 0
  have h₁ := halfBins_zero x hn 1
  have hr : tdc.r = (halfBins n x 0 0).re := by
    rw [← Cpx.toC_re, htdc, h₁]
    simp
  have hi : tdc.i = (halfBins n x 1 0).re := by
    rw [← Cpx.toC_im, htdc, h₀]
    simp
  have hfirst := realBins_eq x hn 0 0
  have hlast := realBins_eq x hn 0 1
  rw [Nat.zero_mul, Nat.add_zero, pow_zero, one_mul, h₀, h₁] at hfirst
  rw [Nat.one_mul, Nat.zero_add, fftRoot_half false hn, h₀, h₁] at hlast
  rw [hfirst, hlast, hr, hi]
  constructor <;> apply Complex.ext <;> simp [sub_eq_add_neg]

/-- The bins of `kiss_fftr` in terms of the transform of the packed samples. -/
theorem kissFftr_eq {st : KissFftrState ℝ} (hst : RealReady n false st) (freqdata : ℕ → Cpx ℝ) (hn : 0 < n) :
    ∃ bins, kissFftr st x freqdata =
        some (bins, { st with tmpbuf := kissFft st.substate (packed x) st.tmpbuf }) ∧
      (∀ k ≤ n, (bins k).toC = realBins n x k) ∧ ∀ k, n < k → bins k = freqdata k := by
  obtain ⟨junk, hsub⟩ := hst.substate
  have hinv : st.substate.inverse = false := by rw [hsub]; rfl
  have hnfft : st.substate.nfft = n := by rw [hsub]; rfl
  have hz : ∀ k < n, (kissFft st.substate (packed x) st.tmpbuf k).toC = halfBins n x 0 k + I * halfBins n x 1 k := by
    intro k hk
    rw [hsub]
    exact kissFft_packed x hn junk st.tmpbuf hk
  unfold kissFftr
  rw [if_neg (by rw [hinv]; exact Bool.false_ne_true), hnfft]
  generalize kissFft st.substate (packed x) st.tmpbuf = z at hz ⊢
  refine ⟨_, rfl, fun k hk => ?_, fun k hk => ?_⟩
  · simp only [forLoop_mirror]
    split_ifs with hmid hlow
    · exact (kissFftr_turn x hn hst hz hmid.1 (by omega)).1
    · have hturn := (kissFftr_turn x hn hst hz (show 0 < n - k by omega) (by omega)).2
      simp only [Nat.sub_sub_self hk] at hturn ⊢
      exact hturn
    · have hends := kissFftr_ends x hn (hz 0 hn)
      by_cases hk₀ : k = n
      · rw [hk₀, Function.update_self]
        exact hends.2
      · obtain rfl : k = 0 := by omega
        rw [Function.update_of_ne hk₀, Function.update_self]
        exact hends.1
  · simp only [forLoop_mirror]
    rw [if_neg (by omega), Function.update_of_ne (by omega), Function.update_of_ne (by omega)]

theorem RealReady.tmpbuf {inverse : Bool} {st : KissFftrState ℝ} (hst : RealReady n inverse st) (z : ℕ → Cpx ℝ) :
    RealReady n inverse { st with tmpbuf := z } :=
  ⟨hst.substate, hst.superTwiddles⟩

/-- **The real transform is the transform.** For every positive even number of samples whose size stays in an `int`,
`kiss_fftr_alloc` makes a state; with any such state, and whatever its buffer holds, `kiss_fftr` returns, leaves in its
output the first half of the bins of the discrete Fourier transform of the samples, changes nothing behind them, and
leaves a state to use again. -/
theorem kissFftr_eq_dft (n : ℕ) (hn : RealLength n) :
    (∀ junk, ∃ st, Fft.kissFftrAlloc (2 * n) false junk = some st ∧ RealReady n false st) ∧
    ∀ st, RealReady n false st → ∀ timedata freqdata, ∃ bins st',
      kissFftr st timedata freqdata = some (bins, st') ∧ RealReady n false st' ∧
      (∀ k ≤ n, (bins k).toC = dft (fftRoot false (2 * n)) (2 * n) (fun j => (timedata j : ℂ)) k) ∧
      ∀ k, n < k → bins k = freqdata k := by
  refine ⟨RealReady.of_alloc hn.pos false, fun st hst timedata freqdata => ?_⟩
  obtain ⟨bins, hrun, hbins, hrest⟩ := kissFftr_eq timedata hst freqdata hn.pos
  exact ⟨bins, _, hrun, hst.tmpbuf _, hbins, hrest⟩

/-- Twelve samples. -/
theorem kissFftr_eq_dft_twelve :
    ∃ st bins st', kissFftr st (fun _ => 1) (fun _ => ⟨0, 0⟩) = some (bins, st') ∧ RealReady 6 false st' ∧
      ∀ k ≤ 6, (bins k).toC = dft (fftRoot false (2 * 6)) (2 * 6) (fun _ => ((1 : ℝ) : ℂ)) k := by
  obtain ⟨halloc, hrun⟩ := kissFftr_eq_dft 6 ⟨by decide, by decide⟩
  obtain ⟨st, -, hst⟩ := halloc ⟨⟨0, false, [], fun _ => ⟨0, 0⟩⟩, fun _ => ⟨0, 0⟩, fun _ => ⟨0, 0⟩⟩
  obtain ⟨bins, st', hbins, hst', hdft, -⟩ := hrun st hst (fun _ => 1) fun _ => ⟨0, 0⟩
  exact ⟨st, bins, st', hbins, hst', hdft⟩

end Forward

/-! ## `kiss_fftri` -/

section Backward

/-- All bins of `2 * n` real samples, from the first `n + 1`; of the first and the last, the real part alone. -/
noncomputable def hermitian (n : ℕ) (freqdata : ℕ → Cpx ℝ) (k : ℕ) : ℂ :=
  if k = 0 ∨ k = n then ((freqdata k).r : ℂ)
  else if k < n then (freqdata k).toC
  else starRingEnd ℂ (freqdata (2 * n - k)).toC

variable (freqdata : ℕ → Cpx ℝ)

theorem hermitian_of_lt {k : ℕ} (hk₀ : 0 < k) (hk : k < n) : hermitian n freqdata k = (freqdata k).toC := by
  rw [hermitian, if_neg (by omega), if_pos hk]

theorem hermitian_of_gt {k : ℕ} (hk₀ : 0 < k) (hk : k < n) :
    hermitian n freqdata (k + n) = starRingEnd ℂ (freqdata (n - k)).toC := by
  rw [hermitian, if_neg (by omega), if_neg (by omega), show 2 * n - (k + n) = n - k by omega]

theorem conj_hermitian {k : ℕ} (hk : k < 2 * n) :
    starRingEnd ℂ (hermitian n freqdata k) = hermitian n freqdata ((2 * n - k) % (2 * n)) := by
  rcases Nat.eq_zero_or_pos k with rfl | hk₀
  · rw [Nat.sub_zero, Nat.mod_self, hermitian, if_pos (.inl rfl), conj_ofReal]
  · rw [Nat.mod_eq_of_lt (by omega)]
    rcases Nat.lt_trichotomy k n with hlt | rfl | hgt
    · rw [hermitian_of_lt freqdata hk₀ hlt, show 2 * n - k = n - k + n by omega,
        hermitian_of_gt freqdata (by omega) (by omega), Nat.sub_sub_self hlt.le]
    · rw [show 2 * k - k = k by omega, hermitian, if_pos (.inr rfl), conj_ofReal]
    · obtain ⟨j, rfl⟩ := Nat.exists_eq_add_of_le' hgt.le
      rw [hermitian_of_gt freqdata (by omega) (by omega), conj_conj, show 2 * n - (j + n) = n - j by omega,
        hermitian_of_lt freqdata (by omega) (by omega)]

/-- The samples that belong to the bins. -/
noncomputable def realSamples (n : ℕ) (freqdata : ℕ → Cpx ℝ) : ℕ → ℂ :=
  dft (fftRoot true (2 * n)) (2 * n) (hermitian n freqdata)

theorem conj_realSamples (hn : 0 < n) (j : ℕ) : starRingEnd ℂ (realSamples n freqdata j) = realSamples n freqdata j :=
  conj_dft_of_hermitian (conj_fftRoot true (by omega)) (isPrimitiveRoot_fftRoot true (by omega)).pow_eq_one
    (fun _ hk => conj_hermitian freqdata hk) j

/-- The bins of the samples packed in pairs. -/
noncomputable def packedBins (n : ℕ) (freqdata : ℕ → Cpx ℝ) (k : ℕ) : ℂ :=
  hermitian n freqdata k + hermitian n freqdata (k + n) +
    I * (fftRoot true (2 * n) ^ k * (hermitian n freqdata k - hermitian n freqdata (k + n)))

theorem dft_packedBins (hn : 0 < n) (j : ℕ) : dft (fftRoot true n) n (packedBins n freqdata) j =
    realSamples n freqdata (2 * j + 0) + I * realSamples n freqdata (2 * j + 1) := by
  have hroot := (isPrimitiveRoot_fftRoot true (show 0 < 2 * n by omega)).pow_eq_one
  unfold packedBins
  rw [dft_add, dft_mul_left, realSamples, dft_decimate_freq hroot, dft_decimate_freq hroot, fftRoot_sq true hn,
    fftRoot_half true hn]
  simp [sum_range_succ, Nat.add_comm n, sub_eq_add_neg]

/-- The root, half way around and back. -/
theorem fftRoot_sub (inverse : Bool) (hn : 0 < n) {k : ℕ} (hk : k ≤ n) :
    fftRoot inverse (2 * n) ^ (n - k) = -starRingEnd ℂ (fftRoot inverse (2 * n) ^ k) := by
  have hne := (isPrimitiveRoot_fftRoot inverse (show 0 < 2 * n by omega)).ne_zero (by omega)
  rw [map_pow, conj_fftRoot inverse (by omega), pow_sub₀ _ hne hk, fftRoot_half inverse hn, inv_pow, neg_one_mul]

/-- The two bins that one turn of `kiss_fftri` computes. -/
theorem kissFftri_turn (hn : 0 < n) {st : KissFftrState ℝ} (hst : RealReady n true st) {k : ℕ} (hk₀ : 0 < k)
    (hk : k < n / 2 + 1) :
    let fnkc : Cpx ℝ := ⟨(freqdata (n - k)).r, -(freqdata (n - k)).i⟩
    let fek := (freqdata k).add fnkc
    let fok := ((freqdata k).sub fnkc).mul (st.superTwiddles (k - 1))
    (fek.add fok).toC = packedBins n freqdata k ∧
    (⟨(fek.sub fok).r, (fek.sub fok).i * ofRat (-1)⟩ : Cpx ℝ).toC = packedBins n freqdata (n - k) := by
  intro fnkc fek fok
  have hsuper := hst.superTwiddles (k - 1) (by omega)
  rw [Nat.sub_add_cancel hk₀] at hsuper
  simp only [if_true] at hsuper
  have hfnkc : fnkc.toC = starRingEnd ℂ (freqdata (n - k)).toC := toC_conj _
  have hlast : (⟨(fek.sub fok).r, (fek.sub fok).i * ofRat (-1)⟩ : Cpx ℝ).toC = starRingEnd ℂ (fek.sub fok).toC := by
    rw [← toC_conj]
    simp
  constructor
  · rw [packedBins, hermitian_of_lt freqdata hk₀ (by omega), hermitian_of_gt freqdata hk₀ (by omega), Cpx.toC_add,
      Cpx.toC_add, Cpx.toC_mul, Cpx.toC_sub, hfnkc, hsuper]
    ring
  · rw [hlast, packedBins, hermitian_of_lt freqdata (by omega) (by omega),
      hermitian_of_gt freqdata (by omega) (by omega), Nat.sub_sub_self (by omega), fftRoot_sub true hn (by omega),
      Cpx.toC_sub, Cpx.toC_add, Cpx.toC_mul, Cpx.toC_sub, hfnkc, hsuper]
    simp only [map_sub, map_add, map_mul, conj_conj, conj_I]
    ring

/-- A pair of samples read as a complex number. -/
theorem unpacked_eq (hn : 0 < n) {z : ℕ → Cpx ℝ} {j : ℕ}
    (hz : (z (j / 2)).toC = realSamples n freqdata (2 * (j / 2)) + I * realSamples n freqdata (2 * (j / 2) + 1)) :
    ((unpacked z j : ℝ) : ℂ) = realSamples n freqdata j := by
  have hreal : ∀ j, ((realSamples n freqdata j).re : ℂ) = realSamples n freqdata j :=
    fun j => conj_eq_iff_re.mp (conj_realSamples freqdata hn j)
  have hpair := Nat.mod_add_div j 2
  rw [← hreal (2 * (j / 2)), ← hreal (2 * (j / 2) + 1)] at hz
  have hre := congrArg re hz
  have him := congrArg im hz
  rw [unpacked, ← hreal j]
  split_ifs with hpar
  · rw [hpar, Nat.zero_add] at hpair
    rw [← Cpx.toC_re, hre, hpair]
    simp
  · rw [show j % 2 = 1 by omega, Nat.add_comm] at hpair
    rw [← Cpx.toC_im, him, hpair]
    simp

/-- The samples of `kiss_fftri`. -/
theorem kissFftri_eq {st : KissFftrState ℝ} (hst : RealReady n true st) (timedata : ℕ → ℝ) (hn : 0 < n) :
    ∃ out z, kissFftri st freqdata timedata = some (out, { st with tmpbuf := z }) ∧
      (∀ j < 2 * n, (out j : ℂ) = realSamples n freqdata j) ∧ ∀ j, 2 * n ≤ j → out j = timedata j := by
  obtain ⟨junk, hsub⟩ := hst.substate
  have hinv : st.substate.inverse = true := by rw [hsub]; rfl
  have hnfft : st.substate.nfft = n := by rw [hsub]; rfl
  unfold kissFftri
  rw [if_neg (by rw [hinv]; exact fun h => h rfl), hnfft]
  simp only [Function.update_idem, Function.update_self, forLoop_mirror]
  refine ⟨_, _, rfl, ?_⟩
  generalize hz : (fun x => if 0 < x ∧ x < n then _ else _ : ℕ → Cpx ℝ) = z
  have hbins : ∀ k < n, (z k).toC = packedBins n freqdata k := by
    intro k hk
    rw [← hz]
    dsimp only
    split_ifs with hmid hlow
    · exact (kissFftri_turn freqdata hn hst hmid.1 (by omega)).1
    · have hturn := (kissFftri_turn freqdata hn hst (show 0 < n - k by omega) (by omega)).2
      simp only [Nat.sub_sub_self hk.le] at hturn ⊢
      exact hturn
    · obtain rfl : k = 0 := by omega
      rw [Function.update_self, packedBins, hermitian, hermitian, if_pos (.inl rfl), if_pos (.inr (Nat.zero_add n)),
        Nat.zero_add]
      apply Complex.ext <;> simp
  rw [hsub]
  constructor
  · intro j hj
    have hbin : j / 2 < n := by omega
    refine unpacked_eq freqdata hn ?_
    rw [kissFft_eq_dft hn true junk z _ hbin, dft_congr hbins, dft_packedBins freqdata hn, Nat.add_zero]
  · intro j hj
    have hcell := (kissFftStride_apply hn true junk z (packed timedata) 1).2 (j / 2) (by omega)
    have hpair := Nat.mod_add_div j 2
    rw [unpacked, kissFft, hcell]
    split_ifs with hpar
    · rw [hpar, Nat.zero_add] at hpair
      exact congrArg timedata hpair
    · rw [show j % 2 = 1 by omega, Nat.add_comm] at hpair
      exact congrArg timedata hpair

/-- **The inverse real transform.** For every positive even number of samples whose size stays in an `int`,
`kiss_fftri` with a state of `kiss_fftr_alloc` returns; the samples it leaves are real, and are the inverse transform,
times their number, of the bins it reads continued to all bins, whatever the imaginary parts of the first and the last;
nothing behind the samples changes. -/
theorem kissFftri_eq_dft (n : ℕ) (hn : RealLength n) :
    (∀ junk, ∃ st, Fft.kissFftrAlloc (2 * n) true junk = some st ∧ RealReady n true st) ∧
    ∀ st, RealReady n true st → ∀ freqdata timedata, ∃ out st',
      kissFftri st freqdata timedata = some (out, st') ∧ RealReady n true st' ∧
      (∀ j < 2 * n, (out j : ℂ) = dft (fftRoot true (2 * n)) (2 * n) (hermitian n freqdata) j) ∧
      ∀ j, 2 * n ≤ j → out j = timedata j := by
  refine ⟨RealReady.of_alloc hn.pos true, fun st hst freqdata timedata => ?_⟩
  obtain ⟨out, z, hrun, hout, hrest⟩ := kissFftri_eq freqdata hst timedata hn.pos
  exact ⟨out, _, hrun, hst.tmpbuf z, hout, hrest⟩

/-- Twelve samples. -/
theorem kissFftri_eq_dft_twelve :
    ∃ st out st', kissFftri st (fun _ => ⟨1, 0⟩) (fun _ => 0) = some (out, st') ∧ RealReady 6 true st' ∧
      ∀ j < 2 * 6, (out j : ℂ) = dft (fftRoot true (2 * 6)) (2 * 6) (hermitian 6 fun _ => ⟨1, 0⟩) j := by
  obtain ⟨halloc, hrun⟩ := kissFftri_eq_dft 6 ⟨by decide, by decide⟩
  obtain ⟨st, -, hst⟩ := halloc ⟨⟨0, false, [], fun _ => ⟨0, 0⟩⟩, fun _ => ⟨0, 0⟩, fun _ => ⟨0, 0⟩⟩
  obtain ⟨out, st', hout, hst', hdft, -⟩ := hrun st hst (fun _ => ⟨1, 0⟩) fun _ => 0
  exact ⟨st, out, st', hout, hst', hdft⟩

/-! ## Back and forth -/

/-- The bins of real samples, continued, are all their bins. -/
theorem hermitian_realBins (hn : 0 < n) (x : ℕ → ℝ) (hbins : ∀ k ≤ n, (freqdata k).toC = realBins n x k) {k : ℕ}
    (hk : k < 2 * n) : hermitian n freqdata k = realBins n x k := by
  have hreal : ∀ j, j = 0 ∨ j = n → starRingEnd ℂ (realBins n x j) = realBins n x j := by
    rintro j (rfl | rfl)
    · rw [conj_realBins x hn (Nat.zero_le _), Nat.sub_zero, ← Nat.zero_add (2 * n)]
      exact dft_add_period (isPrimitiveRoot_fftRoot false (by omega)).pow_eq_one _ 0
    · rw [conj_realBins x hn (by omega), show 2 * j - j = j by omega]
  by_cases hends : k = 0 ∨ k = n
  · rw [hermitian, if_pos hends, ← Cpx.toC_re, hbins k (by omega)]
    exact conj_eq_iff_re.mp (hreal k hends)
  · rcases Nat.lt_or_gt_of_ne (not_or.mp hends).2 with hlt | hgt
    · rw [hermitian_of_lt freqdata (by omega) hlt, hbins k hlt.le]
    · obtain ⟨j, rfl⟩ := Nat.exists_eq_add_of_le' hgt.le
      rw [hermitian_of_gt freqdata (by omega) (by omega), hbins _ (Nat.sub_le n j), conj_realBins x hn (by omega)]
      congr 1
      omega

/-- The samples of the bins of real samples. -/
theorem realSamples_realBins (hn : 0 < n) (x : ℕ → ℝ) (hbins : ∀ k ≤ n, (freqdata k).toC = realBins n x k) {j : ℕ}
    (hj : j < 2 * n) : realSamples n freqdata j = (2 * n : ℕ) * x j := by
  rw [realSamples, dft_congr fun k hk => hermitian_realBins freqdata hn x hbins hk,
    show fftRoot true (2 * n) = (fftRoot false (2 * n))⁻¹ from fftRoot_not false _]
  exact dft_inv (isPrimitiveRoot_fftRoot false (show 0 < 2 * n by omega)) _ hj

end Backward

/-- **There and back.** For every positive even number of samples whose size stays in an `int`, with any states of
`kiss_fftr_alloc` for the two directions, and whatever the buffers and the outputs hold, `kiss_fftri` of what
`kiss_fftr` computes is the input times the number of samples. -/
theorem kissFftri_kissFftr (n : ℕ) (hn : RealLength n) (st st' : KissFftrState ℝ) (hst : RealReady n false st)
    (hst' : RealReady n true st') (timedata timedata' : ℕ → ℝ) (freqdata : ℕ → Cpx ℝ) :
    ∃ bins out s s', kissFftr st timedata freqdata = some (bins, s) ∧
      kissFftri st' bins timedata' = some (out, s') ∧ ∀ j < 2 * n, out j = (2 * n : ℕ) * timedata j := by
  obtain ⟨bins, hrun, hbins, -⟩ := kissFftr_eq timedata hst freqdata hn.pos
  obtain ⟨out, z, hrun', hout, -⟩ := kissFftri_eq bins hst' timedata' hn.pos
  refine ⟨bins, out, _, _, hrun, hrun', fun j hj => ?_⟩
  have hsample : (out j : ℂ) = (2 * n : ℕ) * timedata j :=
    (hout j hj).trans (realSamples_realBins bins hn.pos timedata hbins hj)
  exact_mod_cast hsample

/-- Four samples. -/
theorem kissFftri_kissFftr_four :
    ∃ st st' bins out s s', kissFftr st (fun _ => 1) (fun _ => ⟨0, 0⟩) = some (bins, s) ∧
      kissFftri st' bins (fun _ => 0) = some (out, s') ∧ ∀ j < 2 * 2, out j = ((2 * 2 : ℕ) : ℝ) * 1 := by
  obtain ⟨st, hst⟩ := exists_ready (show 0 < 2 by decide) false
  obtain ⟨st', hst'⟩ := exists_ready (show 0 < 2 by decide) true
  exact ⟨st, st', kissFftri_kissFftr 2 ⟨by decide, by decide⟩ st st' hst hst' (fun _ => 1) (fun _ => 0) fun _ => ⟨0, 0⟩⟩

end AudioProcess
