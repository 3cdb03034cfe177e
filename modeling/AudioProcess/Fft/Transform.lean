import AudioProcess.Fft.Butterfly
import AudioProcess.Lib.Dft
import Mathlib.RingTheory.RootsOfUnity.Complex

/-!
# The complex transform

* `Fills`: a piece of code that fills a block of memory, whatever the memory holds; `forLoop_fills`: a loop of them;
* **`kfWork_fills`**: the recursion of `kf_work` computes a discrete Fourier transform;
* `fftRoot`, `twiddled_kissFftAlloc`: the table of `kiss_fft_alloc`;
* `FftLength`: the lengths whose indices stay in an `int`;
* **`kissFftStride_eq_dft`**: `kiss_fft_stride` is the transform, for any length and stride;
* **`kissFft_inverse`**: the two directions undo each other.
-/

namespace AudioProcess

open CFloat CLoop Dft Finset

/-! ## Blocks -/

/-- The code `body` fills the `m` cells from `o` on with `v`, and changes no other cell. -/
structure Fills (body : (ℕ → Cpx ℝ) → ℕ → Cpx ℝ) (o m : ℕ) (v : ℕ → ℂ) : Prop where
  cells : ∀ mem, ∀ u < m, (body mem (o + u)).toC = v u
  frame : ∀ mem x, ¬ (o ≤ x ∧ x < o + m) → body mem x = mem x

/-- A loop that fills block after block. -/
theorem forLoop_fills {body : ℕ → (ℕ → Cpx ℝ) → ℕ → Cpx ℝ} {out p m : ℕ} {v : ℕ → ℕ → ℂ}
    (hbody : ∀ i < p, Fills (body i) (out + i * m) m (v i)) (mem : ℕ → Cpx ℝ) :
    (∀ u < m, ∀ r < p, (forLoop 0 p body mem (out + (u + r * m))).toC = v r u) ∧
    ∀ x, ¬ (out ≤ x ∧ x < out + p * m) → forLoop 0 p body mem x = mem x := by
  let part (i x : ℕ) : Prop := out + i * m ≤ x ∧ x < out + i * m + m
  have hframe : ∀ i (mem : ℕ → Cpx ℝ) x, 0 ≤ i → i < p → ¬ part i x → body i mem x = mem x :=
    fun i mem x _ hi hx => (hbody i hi).frame mem x hx
  constructor
  · intro u hu r hr
    have hdisj : ∀ i j x, 0 ≤ i → i < p → 0 ≤ j → j < p → part i x → part j x → i = j := by
      rintro i j x - - - - ⟨hi, hi'⟩ ⟨hj, hj'⟩
      have htile := fun i => in_tile_iff (w := m) (x := x - out) (i := i) (by omega)
      rw [(htile i).mp (by omega), (htile j).mp (by omega)]
    obtain ⟨mem', -, hend⟩ := forLoop_disjoint part mem hdisj hframe (Nat.zero_le r) hr
    have hcell : out + (u + r * m) = out + r * m + u := by omega
    rw [hcell, hend _ ⟨by omega, by omega⟩, (hbody r hr).cells mem' u hu]
  · intro x hx
    refine forLoop_outside part mem (fun i mem h₁ h₂ => hframe i mem x h₁ h₂) ?_
    rintro i - hi ⟨hlo, hhi⟩
    have hlast : (i + 1) * m ≤ p * m := Nat.mul_le_mul_right m hi
    rw [Nat.succ_mul] at hlast
    exact hx ⟨by omega, by omega⟩

/-! ## `kf_work` -/

variable {st : KissFftState ℝ} {w : ℂ}

/-- The block that a single cell makes. -/
theorem fills_cell (o : ℕ) (z : Cpx ℝ) (v : ℕ → ℂ) (hv : z.toC = v 0) :
    Fills (fun mem => Function.update mem o z) o 1 v where
  cells mem u hu := by
    obtain rfl : u = 0 := by omega
    simp [hv]
  frame mem x hx := Function.update_of_ne (show x ≠ o by omega) z mem

/-- A stage: the smaller transforms, and the butterflies over them. -/
theorem fills_stage (hst : Twiddled st w) {p m fstride out : ℕ} (hlen : fstride * (p * m) = st.nfft)
    {body : ℕ → (ℕ → Cpx ℝ) → ℕ → Cpx ℝ} {x : ℕ → ℂ}
    (hbody : ∀ r < p, Fills (body r) (out + r * m) m (dft ((w ^ fstride) ^ p) m fun j => x (p * j + r))) :
    Fills (fun mem => kfBfly st fstride m p out (forLoop 0 p body mem)) out (p * m) (dft (w ^ fstride) (p * m) x) where
  cells mem k hk := by
    have hm : 0 < m := Nat.pos_of_ne_zero fun h => by
      rw [h, Nat.mul_zero] at hk
      exact Nat.not_lt_zero k hk
    have hroot : (w ^ fstride) ^ (p * m) = 1 := by rw [← pow_mul, hlen, hst.prim.pow_eq_one]
    have hu := Nat.mod_lt k hm
    have hq : k / m < p := (Nat.div_lt_iff_lt_mul hm).mpr hk
    obtain ⟨hblocks, -⟩ := forLoop_fills hbody mem
    have hcells := (kfBfly_spec hst hlen out (forLoop 0 p body mem)).1 (k % m) hu (k / m) hq
    have hk' : k % m + k / m * m = k := by rw [Nat.mul_comm, Nat.mod_add_div]
    rw [← hk', hcells, dft_decimate hroot]
    exact sum_congr rfl fun r hr => by rw [hblocks _ hu r (mem_range.mp hr)]
  frame mem y hy := by
    obtain ⟨-, hout⟩ := forLoop_fills hbody mem
    rw [(kfBfly_spec hst hlen out (forLoop 0 p body mem)).2 y hy, hout y hy]

/-- **The recursion of `kf_work`** computes the discrete Fourier transform of the input it reads. -/
theorem kfWork_fills (hst : Twiddled st w) (f : ℕ → Cpx ℝ) (inStride : ℕ) {factors : List (ℕ × ℕ)}
    (hne : factors ≠ []) {n : ℕ} (hstages : Stages n factors 1) {fstride : ℕ} (hlen : fstride * n = st.nfft)
    (out off : ℕ) :
    Fills (kfWork st f inStride factors fstride out off) out n
      (dft (w ^ fstride) n fun j => (f (off + j * (fstride * inStride))).toC) := by
  induction factors generalizing n fstride out off with
  | nil => exact absurd rfl hne
  | cons pm factors ih =>
      obtain ⟨p, m⟩ := pm
      obtain ⟨rfl, hrest⟩ := hstages
      by_cases hm : m = 1
      · subst hm
        have hwork : kfWork st f inStride ((p, 1) :: factors) fstride out off = fun mem =>
            kfBfly st fstride 1 p out (forLoop 0 p (fun i mem =>
              Function.update mem (out + i) (f (off + i * (fstride * inStride)))) mem) := by
          funext mem
          rw [kfWork, if_pos rfl]
        rw [hwork]
        refine fills_stage hst hlen fun r hr => ?_
        rw [Nat.mul_one]
        exact fills_cell _ _ _ (by simp)
      · have hwork : kfWork st f inStride ((p, m) :: factors) fstride out off = fun mem =>
            kfBfly st fstride m p out (forLoop 0 p (fun i mem =>
              kfWork st f inStride factors (fstride * p) (out + i * m) (off + i * (fstride * inStride)) mem) mem) := by
          funext mem
          rw [kfWork, if_neg hm]
        have hne' : factors ≠ [] := by
          rintro rfl
          exact hm hrest
        rw [hwork]
        refine fills_stage hst hlen fun r hr => ?_
        have hsub := ih hne' hrest (show fstride * p * m = st.nfft by rw [Nat.mul_assoc, hlen]) (out + r * m)
          (off + r * (fstride * inStride))
        have hidx : ∀ j, off + (p * j + r) * (fstride * inStride) =
            off + r * (fstride * inStride) + j * (fstride * p * inStride) := fun j => by ring
        rw [pow_mul] at hsub
        simp only [hidx]
        exact hsub

/-! ## `kiss_fft_alloc` -/

/-- The root of a transform of `n` samples. -/
noncomputable def fftRoot (inverse : Bool) (n : ℕ) : ℂ :=
  let ζ := Complex.exp ((2 : ℕ) * Real.pi * Complex.I / n)
  if inverse then ζ else ζ⁻¹

theorem isPrimitiveRoot_fftRoot (inverse : Bool) {n : ℕ} (hn : 0 < n) : IsPrimitiveRoot (fftRoot inverse n) n := by
  have hζ := Complex.isPrimitiveRoot_exp n hn.ne'
  rw [← Nat.cast_two] at hζ
  cases inverse
  · exact hζ.inv
  · exact hζ

theorem toC_kfCexp (phase : ℝ) : (kfCexp phase).toC = Complex.exp (phase * Complex.I) := by
  apply Complex.ext
  · simp [kfCexp, Complex.exp_ofReal_mul_I_re]
  · simp [kfCexp, Complex.exp_ofReal_mul_I_im]

theorem fftRoot_pow (inverse : Bool) (n i : ℕ) :
    fftRoot inverse n ^ i = Complex.exp ((if inverse then 1 else -1) * (2 * Real.pi * Complex.I / n) * i) := by
  cases inverse
  · simp [fftRoot, ← Complex.exp_neg, ← Complex.exp_nat_mul, mul_comm]
  · simp [fftRoot, ← Complex.exp_nat_mul, mul_comm]

theorem kissFftAlloc_twiddles (n : ℕ) (inverse : Bool) (junk : ℕ → Cpx ℝ) {i : ℕ} (hi : i < n) :
    ((kissFftAlloc n inverse junk).twiddles i).toC = fftRoot inverse n ^ i := by
  simp only [kissFftAlloc, forLoop_set, if_pos hi]
  rw [toC_kfCexp, fftRoot_pow]
  congr 1
  cases inverse <;> simp <;> ring

theorem fftRoot_quarter (inverse : Bool) {n k : ℕ} (hn : 0 < n) (hk : n = k * 4) :
    fftRoot inverse n ^ k = if inverse then Complex.I else -Complex.I := by
  have hk₀ : (k : ℂ) ≠ 0 := by
    have : k ≠ 0 := by omega
    exact_mod_cast this
  have hexp : 2 * Real.pi * Complex.I / n * k = Real.pi / 2 * Complex.I := by
    rw [hk]
    push_cast
    field_simp
    ring
  rw [fftRoot_pow, mul_assoc, hexp]
  cases inverse
  · simp [Complex.exp_neg, Complex.exp_pi_div_two_mul_I]
  · simp [Complex.exp_pi_div_two_mul_I]

theorem twiddled_kissFftAlloc {n : ℕ} (hn : 0 < n) (inverse : Bool) (junk : ℕ → Cpx ℝ) :
    Twiddled (kissFftAlloc n inverse junk) (fftRoot inverse n) where
  pos := hn
  prim := isPrimitiveRoot_fftRoot inverse hn
  twiddles _ hi := kissFftAlloc_twiddles n inverse junk hi
  quarter _ hk := fftRoot_quarter inverse hn hk

theorem kfFactor_ne_nil {n : ℕ} (hn : 0 < n) : kfFactor n ≠ [] := by
  rcases Nat.lt_or_ge 1 n with h | h
  · intro hnil
    have hstages := kfFactor_stages hn
    rw [hnil] at hstages
    have : n = 1 := hstages
    omega
  · obtain rfl : n = 1 := by omega
    decide +kernel

/-! ## `kiss_fft` -/

/-- The lengths at which `kiss_fft` works. -/
structure FftLength (n : ℕ) : Prop where
  pos : 0 < n
  /-- The `int twidx` of `kf_bfly_generic` is below `2 * n` before it is wrapped. -/
  int : n ≤ 2 ^ 30

/-- The index of `kf_bfly_generic` into the twiddle factors stays in an `int`, also before it is wrapped. -/
theorem FftLength.genericSum_index (hlen : FftLength st.nfft) {fstride k : ℕ} (hstep : fstride * k < st.nfft)
    (scratch : ℕ → Cpx ℝ) {q : ℕ} (hq : 1 ≤ q) :
    ((genericSum st fstride q k scratch).2 + fstride * k : ℤ) ≤ CInt.intMax := by
  have hidx : (genericSum st fstride q k scratch).2 < st.nfft := by
    unfold genericSum
    refine forLoop_induction (fun _ (s : Cpx ℝ × ℕ) => s.2 < st.nfft) hq hlen.pos ?_
    rintro q ⟨sum, twidx⟩ - - htwidx
    dsimp only at htwidx ⊢
    rw [wrap_index htwidx hstep]
    exact Nat.mod_lt _ hlen.pos
  have hint := hlen.int
  have hmax : CInt.intMax = 2147483647 := rfl
  have hstep' : ((fstride * k : ℕ) : ℤ) < st.nfft := by exact_mod_cast hstep
  rw [Nat.cast_mul] at hstep'
  omega

theorem kissFftStride_apply {n : ℕ} (hn : 0 < n) (inverse : Bool) (junk fin fout : ℕ → Cpx ℝ) (inStride : ℕ) :
    (∀ k < n, (kissFftStride (kissFftAlloc n inverse junk) fin fout inStride k).toC =
      dft (fftRoot inverse n) n (fun j => (fin (j * inStride)).toC) k) ∧
    ∀ k, n ≤ k → kissFftStride (kissFftAlloc n inverse junk) fin fout inStride k = fout k := by
  have hfills := kfWork_fills (twiddled_kissFftAlloc hn inverse junk) fin inStride (kfFactor_ne_nil hn)
    (kfFactor_stages hn) (Nat.one_mul n) 0 0
  constructor
  · intro k hk
    have hcell := hfills.cells fout k hk
    simp only [Nat.zero_add, Nat.one_mul, pow_one] at hcell
    exact hcell
  · intro k hk
    exact hfills.frame fout k (by omega)

/-- **The fast transform is the transform.** For every positive length up to `2 ^ 30`, in both directions, and every
stride, `kiss_fft_stride` with the state of `kiss_fft_alloc` leaves in its output the discrete Fourier transform of the
input it reads, and changes nothing behind it. -/
theorem kissFftStride_eq_dft (n : ℕ) (hn : FftLength n) (inverse : Bool) (junk fin fout : ℕ → Cpx ℝ) (inStride : ℕ) :
    (∀ k < n, (kissFftStride (kissFftAlloc n inverse junk) fin fout inStride k).toC =
      dft (fftRoot inverse n) n (fun j => (fin (j * inStride)).toC) k) ∧
    ∀ k, n ≤ k → kissFftStride (kissFftAlloc n inverse junk) fin fout inStride k = fout k :=
  kissFftStride_apply hn.pos inverse junk fin fout inStride

/-- Three samples. -/
theorem kissFftStride_eq_dft_three :
    (kissFftStride (kissFftAlloc 3 false fun _ => ⟨0, 0⟩) (fun _ => ⟨1, 0⟩) (fun _ => ⟨0, 0⟩) 1 1).toC =
      dft (fftRoot false 3) 3 (fun _ => (⟨1, 0⟩ : Cpx ℝ).toC) 1 :=
  (kissFftStride_eq_dft 3 ⟨by decide, by decide⟩ false (fun _ => ⟨0, 0⟩) (fun _ => ⟨1, 0⟩) (fun _ => ⟨0, 0⟩) 1).1 1
    (by decide)

theorem kissFft_eq_dft {n : ℕ} (hn : 0 < n) (inverse : Bool) (junk fin fout : ℕ → Cpx ℝ) {k : ℕ} (hk : k < n) :
    (kissFft (kissFftAlloc n inverse junk) fin fout k).toC =
      dft (fftRoot inverse n) n (fun j => (fin j).toC) k := by
  have hfft := (kissFftStride_apply hn inverse junk fin fout 1).1 k hk
  simp only [Nat.mul_one] at hfft
  exact hfft

theorem fftRoot_not (inverse : Bool) (n : ℕ) : fftRoot (!inverse) n = (fftRoot inverse n)⁻¹ := by
  cases inverse <;> simp [fftRoot]

/-- **The two directions** undo each other, times the length, which is positive and at most `2 ^ 30`: a transform of a
transform in the other direction, with whatever the tables and the outputs held before. -/
theorem kissFft_inverse (n : ℕ) (hn : FftLength n) (inverse : Bool) (junk junk' fin fout fout' : ℕ → Cpx ℝ) (k : ℕ)
    (hk : k < n) :
    kissFft (kissFftAlloc n (!inverse) junk') (kissFft (kissFftAlloc n inverse junk) fin fout) fout' k =
      ⟨n * (fin k).r, n * (fin k).i⟩ := by
  apply Cpx.toC_injective
  have hbins : ∀ j < n, (kissFft (kissFftAlloc n inverse junk) fin fout j).toC =
      dft (fftRoot inverse n) n (fun i => (fin i).toC) j := fun j hj =>
    kissFft_eq_dft hn.pos inverse junk fin fout hj
  rw [kissFft_eq_dft hn.pos (!inverse) junk' _ fout' hk, dft_congr hbins, fftRoot_not,
    dft_inv (isPrimitiveRoot_fftRoot inverse hn.pos) _ hk]
  apply Complex.ext <;> simp

/-- Twice three samples. -/
theorem kissFft_inverse_three :
    kissFft (kissFftAlloc 3 true fun _ => ⟨0, 0⟩)
        (kissFft (kissFftAlloc 3 false fun _ => ⟨0, 0⟩) (fun _ => ⟨1, 0⟩) fun _ => ⟨0, 0⟩) (fun _ => ⟨0, 0⟩) 2 =
      (⟨(3 : ℕ) * 1, (3 : ℕ) * 0⟩ : Cpx ℝ) :=
  kissFft_inverse 3 ⟨by decide, by decide⟩ false (fun _ => ⟨0, 0⟩) (fun _ => ⟨0, 0⟩) (fun _ => ⟨1, 0⟩) (fun _ => ⟨0, 0⟩)
    (fun _ => ⟨0, 0⟩) 2 (by decide)

end AudioProcess
