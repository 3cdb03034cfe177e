import AudioProcess.Lib.Allpass
import AudioProcess.Lib.CInt
import AudioProcess.Lib.Loop
import Mathlib.Data.Fin.VecNotation

/-!
# The two-band filter bank (`webrtc/common_audio/signal_processing/splitting_filter_c.c`)

`int32_t` operations that overflow have no defined behaviour; `none` stands for that and for an access outside a local
array. What the local arrays hold before they are written is an argument.

* `subSatW32`, `scaleDiff32`, `satW32ToW16`; `AllPassState`, `allPassStage`, `allPassQMF`;
* `analysisQMF`, `synthesisQMF`;
* `cascade`, `cascadeState`: the three sections on exact integers; `Within`: the states of signals of at most
  `2 ^ 26`;
* **`allPassQMF_eq`**: in such a state nothing overflows, and the three passes over the arrays are the cascade.
-/

namespace AudioProcess

open Allpass CInt CLoop

/-! ## The code -/

/-- `WebRtcSpl_SubSatW32`. -/
def subSatW32 (a b : ℤ) : Option ℤ := do
  let diff ← checked (a - b)
  return if a < 0 then (if b > 0 ∧ diff > 0 then intMin else diff)
    else if b < 0 ∧ diff < 0 then intMax else diff

/-- `WEBRTC_SPL_SCALEDIFF32`: the low half of the product is an unsigned number, and so is the last sum. -/
def scaleDiff32 (a b c : ℤ) : Option ℤ := do
  let high ← checked (b / 2 ^ 16 * a)
  let sum ← checked (c + high)
  return toInt32 (sum + b % 2 ^ 16 * a / 2 ^ 16)

/-- `WebRtcSpl_SatW32ToW16`. -/
def satW32ToW16 (v : ℤ) : Int16 := if v > 32767 then 32767 else if v < -32768 then -32768 else Int16.ofInt v

/-- `WebRtcSpl_kAllPassFilter1`. -/
def kAllPassFilter1 : Fin 3 → ℤ := ![6418, 36982, 57261]

/-- `WebRtcSpl_kAllPassFilter2`. -/
def kAllPassFilter2 : Fin 3 → ℤ := ![21333, 49062, 63010]

/-- `kMaxBandFrameLength`. -/
def kMaxBandFrameLength : ℕ := 320

/-- `filter_state`: the last input and the last output of each stage. -/
structure AllPassState where
  first : Section
  second : Section
  third : Section

/-- The states before any sample. -/
def AllPassState.zero : AllPassState := ⟨⟨0, 0⟩, ⟨0, 0⟩, ⟨0, 0⟩⟩

/-- One output of a stage, from its input and what came before. -/
def allPassOutput (a x : ℤ) (before : Section) : Option ℤ := do
  let diff ← subSatW32 x before.y
  scaleDiff32 a diff before.x

/-- A stage of `WebRtcSpl_AllPassQMF`, from the array `src` to the array `dst`. -/
def allPassStage (a : ℤ) (n : ℕ) (src dst : ℕ → ℤ) (s : Section) : Option ((ℕ → ℤ) × Section) := do
  let y ← allPassOutput a (src 0) s
  let dst ← forLoopM 1 n (fun k dst => do
    let y ← allPassOutput a (src k) ⟨src (k - 1), dst (k - 1)⟩
    return Function.update dst k y) (Function.update dst 0 y)
  return (dst, ⟨src (n - 1), dst (n - 1)⟩)

/-- `WebRtcSpl_AllPassQMF`: `in_data`, which holds the second stage afterwards, `out_data` and the states. With no data,
it reads before its arrays. -/
def allPassQMF (inData : ℕ → ℤ) (n : ℕ) (outData : ℕ → ℤ) (a : Fin 3 → ℤ) (s : AllPassState) :
    Option ((ℕ → ℤ) × (ℕ → ℤ) × AllPassState) :=
  if n = 0 then none
  else do
    let (outData, first) ← allPassStage (a 0) n inData outData s.first
    let (inData, second) ← allPassStage (a 1) n outData inData s.second
    let (outData, third) ← allPassStage (a 2) n inData outData s.third
    return (inData, outData, ⟨first, second, third⟩)

/-- What the arrays `half_in1`, `half_in2`, `filter1` and `filter2` hold at first. -/
structure QmfLocals where
  halfIn1 : ℕ → ℤ
  halfIn2 : ℕ → ℤ
  filter1 : ℕ → ℤ
  filter2 : ℕ → ℤ

/-- The odd samples, shifted to Q10. -/
def oddHalf (x : ℕ → Int16) (i : ℕ) : ℤ := (x (2 * i + 1)).toInt * 2 ^ 10

/-- The even samples, shifted to Q10. -/
def evenHalf (x : ℕ → Int16) (i : ℕ) : ℤ := (x (2 * i)).toInt * 2 ^ 10

/-- The sum of the bands, shifted to Q10. -/
def sumHalf (low high : ℕ → Int16) (i : ℕ) : ℤ := ((low i).toInt + (high i).toInt) * 2 ^ 10

/-- The difference of the bands, shifted to Q10. -/
def diffHalf (low high : ℕ → Int16) (i : ℕ) : ℤ := ((low i).toInt - (high i).toInt) * 2 ^ 10

/-- A sample of a band, from the sum or the difference of the branches. -/
def bandSample (v : ℤ) : Option Int16 := do
  let v ← checked v
  let tmp ← checked (v + 1024)
  return satW32ToW16 (tmp / 2 ^ 11)

/-- A sample of the full band, from a branch. -/
def fullSample (v : ℤ) : Option Int16 := do
  let tmp ← checked (v + 512)
  return satW32ToW16 (tmp / 2 ^ 10)

/-- `WebRtcSpl_AnalysisQMF`: the two bands and the two states. -/
def analysisQMF (junk : QmfLocals) (inData : ℕ → Int16) (inDataLength : ℕ) (lowBand highBand : ℕ → Int16)
    (state1 state2 : AllPassState) : Option ((ℕ → Int16) × (ℕ → Int16) × AllPassState × AllPassState) :=
  let n := inDataLength / 2
  if n > kMaxBandFrameLength then none
  else do
    let halves := forLoop 0 n (fun i h =>
      (Function.update h.1 i (oddHalf inData i), Function.update h.2 i (evenHalf inData i)))
      (junk.halfIn1, junk.halfIn2)
    let (_, filter1, state1) ← allPassQMF halves.1 n junk.filter1 kAllPassFilter1 state1
    let (_, filter2, state2) ← allPassQMF halves.2 n junk.filter2 kAllPassFilter2 state2
    let (lowBand, highBand) ← forLoopM 0 n (fun i bands => do
      let low ← bandSample (filter1 i + filter2 i)
      let high ← bandSample (filter1 i - filter2 i)
      return (Function.update bands.1 i low, Function.update bands.2 i high)) (lowBand, highBand)
    return (lowBand, highBand, state1, state2)

/-- `WebRtcSpl_SynthesisQMF`: the full band and the two states. -/
def synthesisQMF (junk : QmfLocals) (lowBand highBand : ℕ → Int16) (bandLength : ℕ) (outData : ℕ → Int16)
    (state1 state2 : AllPassState) : Option ((ℕ → Int16) × AllPassState × AllPassState) :=
  if bandLength > kMaxBandFrameLength then none
  else do
    let halves := forLoop 0 bandLength (fun i h =>
      (Function.update h.1 i (sumHalf lowBand highBand i), Function.update h.2 i (diffHalf lowBand highBand i)))
      (junk.halfIn1, junk.halfIn2)
    let (_, filter1, state1) ← allPassQMF halves.1 bandLength junk.filter1 kAllPassFilter2 state1
    let (_, filter2, state2) ← allPassQMF halves.2 bandLength junk.filter2 kAllPassFilter1 state2
    let outData ← forLoopM 0 bandLength (fun i out => do
      let even ← fullSample (filter2 i)
      let odd ← fullSample (filter1 i)
      return Function.update (Function.update out (2 * i) even) (2 * i + 1) odd) outData
    return (outData, state1, state2)

/-! ## The sections without overflow -/

/-- The denominator of the coefficients. -/
abbrev q16 : ℤ := 2 ^ 16

/-! ### Stages -/

theorem subSatW32_eq {a b : ℤ} (h : |a - b| ≤ intMax) : subSatW32 a b = some (a - b) := by
  rw [abs_le] at h
  unfold subSatW32
  rw [checked_of_range (by unfold intMin; unfold intMax at h; omega) h.2, Option.bind_eq_bind, Option.bind_some]
  split_ifs with h₁ h₂ h₂ <;> first | rfl | omega

/-- **The scaled difference is the product rounded down**, if nothing overflows. -/
theorem scaleDiff32_eq {a b c : ℤ} (ha : 0 ≤ a) (ha' : a < q16) (h : |b| + |c| + 2 ^ 17 < 2 ^ 31) :
    scaleDiff32 a b c = some (c + a * b / q16) := by
  have hb := abs_le.mp (le_refl |b|)
  have hc := abs_le.mp (le_refl |c|)
  have hb₀ := abs_nonneg b
  have hc₀ := abs_nonneg c
  have hsplit := Int.emod_add_mul_ediv b q16
  have hmod := Int.emod_nonneg b (show q16 ≠ 0 by decide)
  have hmod' := Int.emod_lt_of_pos b (show 0 < q16 by decide)
  unfold scaleDiff32
  simp only [q16] at *
  set u := b / 2 ^ 16
  set l := b % 2 ^ 16
  -- the high half times `a` lies between `0` and the high half of `b`
  have hhigh : -|b| - 2 ^ 16 ≤ u * a ∧ u * a ≤ |b| := by
    rcases le_or_gt 0 u with hu | hu
    · have h₁ : 0 ≤ u * a := mul_nonneg hu ha
      have h₂ : u * a ≤ u * 2 ^ 16 := mul_le_mul_of_nonneg_left ha'.le hu
      constructor <;> linarith
    · have h₁ : u * a ≤ 0 := mul_nonpos_of_nonpos_of_nonneg hu.le ha
      have h₂ : u * 2 ^ 16 ≤ u * a := mul_le_mul_of_nonpos_left ha'.le hu.le
      constructor <;> linarith
  have hprod : a * b / 2 ^ 16 = u * a + l * a / 2 ^ 16 := by
    rw [← hsplit, mul_add, mul_comm a l, show a * (2 ^ 16 * u) = u * a * 2 ^ 16 by ring,
      Int.add_mul_ediv_right _ _ (by decide), add_comm]
  have hlow : 0 ≤ l * a / 2 ^ 16 := Int.ediv_nonneg (mul_nonneg hmod ha) (by decide)
  have hlow' : l * a / 2 ^ 16 ≤ 2 ^ 16 := by
    have := mul_le_mul hmod'.le ha'.le ha (by decide)
    omega
  have hnowrap : toInt32 (c + u * a + l * a / 2 ^ 16) = c + u * a + l * a / 2 ^ 16 := by
    unfold toInt32
    rw [Int.bmod_def]
    split_ifs <;> omega
  rw [checked_of_range (by unfold intMin; omega) (by unfold intMax; omega), Option.bind_eq_bind, Option.bind_some,
    checked_of_range (by unfold intMin; omega) (by unfold intMax; omega), Option.bind_some, hnowrap, hprod,
    ← add_assoc]
  rfl

section Stage

variable {a M M' W : ℤ} {n : ℕ} {src dst : ℕ → ℤ} {s : Section}

/-- A coefficient and bounds for the inputs and the outputs of its stage, with which nothing overflows. -/
structure StageFits (a M M' W : ℤ) : Prop where
  nonneg : 0 ≤ a
  lt : a < q16
  rounding : q16 * q16 ≤ (q16 - a) * W
  output : (q16 + 2 * a) * M + W ≤ q16 * M'
  fits : 2 * M + M' + 2 ^ 17 < 2 ^ 31

theorem StageFits.orbit (h : StageFits a M M' W) (hs : Bounded q16 a M W s) (hsrc : ∀ k < n, |src k| ≤ M) :
    Bounded q16 a M W (orbit q16 a s src n) :=
  hs.orbit (by decide) h.nonneg h.lt.le h.rounding hsrc

theorem StageFits.filtered_le (h : StageFits a M M' W) (hs : Bounded q16 a M W s) (hsrc : ∀ k < n, |src k| ≤ M)
    {k : ℕ} (hk : k < n) : |filtered q16 a s src k| ≤ M' :=
  (h.orbit (n := k + 1) hs fun j hj => hsrc j (by omega)).output_le (by decide) h.nonneg h.output

/-- One output of a stage. -/
theorem StageFits.next (h : StageFits a M M' W) (hs : Bounded q16 a M W s) {x : ℤ} (hx : |x| ≤ M) :
    allPassOutput a x s = some (s.next q16 a x).y := by
  have hy := hs.output_le (by decide) h.nonneg h.output
  have hdiff : |x - s.y| ≤ M + M' := (abs_sub _ _).trans (add_le_add hx hy)
  have hin := hs.input
  have hfits := h.fits
  have hM := (abs_nonneg x).trans hx
  unfold allPassOutput
  rw [subSatW32_eq (by unfold intMax; omega), Option.bind_eq_bind, Option.bind_some,
    scaleDiff32_eq h.nonneg h.lt (by omega)]
  rfl

/-- **A stage is a section**, on an array of its inputs. -/
theorem allPassStage_eq (h : StageFits a M M' W) (hn : 0 < n) (hs : Bounded q16 a M W s) (hsrc : ∀ k < n, |src k| ≤ M) :
    allPassStage a n src dst s =
      some (fun k => if k < n then filtered q16 a s src k else dst k, orbit q16 a s src n) := by
  have hfirst : allPassOutput a (src 0) s = some (filtered q16 a s src 0) := h.next hs (hsrc 0 hn)
  have hstart : Function.update dst 0 (filtered q16 a s src 0) =
      fun j => if j < 1 then filtered q16 a s src j else dst j := by
    simpa using update_below (filtered q16 a s src) dst 0
  unfold allPassStage
  rw [hfirst, Option.bind_eq_bind, Option.bind_some, hstart,
    forLoopM_prefix (filtered q16 a s src) dst (Nat.one_le_iff_ne_zero.mpr hn.ne')]
  · rw [Option.bind_eq_bind, Option.bind_some, orbit_eq hn]
    simp only [if_pos (show n - 1 < n by omega)]
    rfl
  · intro k h₁ h₂
    have hnext : allPassOutput a (src k) (orbit q16 a s src k) = some (filtered q16 a s src k) :=
      h.next (h.orbit hs fun j hj => hsrc j (by omega)) (hsrc k h₂)
    rw [orbit_eq h₁] at hnext
    simp only [if_pos (show k - 1 < k by omega), hnext]
    rfl

/-- The same for an array that holds the signal `x` as far as the stage reads it. -/
theorem allPassStage_of {x : ℕ → ℤ} (h : StageFits a M M' W) (hn : 0 < n) (hs : Bounded q16 a M W s)
    (hx : ∀ k < n, |x k| ≤ M) (src dst : ℕ → ℤ) (hsrc : ∀ k < n, src k = x k) :
    allPassStage a n src dst s =
      some (fun k => if k < n then filtered q16 a s x k else dst k, orbit q16 a s x n) := by
  have hcells : (fun k => if k < n then filtered q16 a s src k else dst k) =
      fun k => if k < n then filtered q16 a s x k else dst k := by
    funext k
    split_ifs with hk
    · exact filtered_congr fun j hj => hsrc j (by omega)
    · rfl
  rw [allPassStage_eq h hn hs fun k hk => by rw [hsrc k hk]; exact hx k hk, orbit_congr hsrc, hcells]

end Stage

/-! ## The cascade -/

/-- The three sections one after another. -/
def cascade (a : Fin 3 → ℤ) (s : AllPassState) (x : ℕ → ℤ) : ℕ → ℤ :=
  filtered q16 (a 2) s.third (filtered q16 (a 1) s.second (filtered q16 (a 0) s.first x))

/-- The states of the three sections after the first inputs. -/
def cascadeState (a : Fin 3 → ℤ) (s : AllPassState) (x : ℕ → ℤ) (n : ℕ) : AllPassState where
  first := orbit q16 (a 0) s.first x n
  second := orbit q16 (a 1) s.second (filtered q16 (a 0) s.first x) n
  third := orbit q16 (a 2) s.third (filtered q16 (a 1) s.second (filtered q16 (a 0) s.first x)) n

/-- The bounds of the signals that go into the three stages, of those that come out, and the allowances for the
rounding. -/
structure CascadeBounds where
  input : ℤ
  first : ℤ
  second : ℤ
  output : ℤ
  rounding : Fin 3 → ℤ

/-- The coefficients fit the bounds. -/
structure CascadeFits (a : Fin 3 → ℤ) (B : CascadeBounds) : Prop where
  first : StageFits (a 0) B.input B.first (B.rounding 0)
  second : StageFits (a 1) B.first B.second (B.rounding 1)
  third : StageFits (a 2) B.second B.output (B.rounding 2)

/-- The states of signals within the bounds. -/
structure Within (a : Fin 3 → ℤ) (B : CascadeBounds) (s : AllPassState) : Prop where
  first : Bounded q16 (a 0) B.input (B.rounding 0) s.first
  second : Bounded q16 (a 1) B.first (B.rounding 1) s.second
  third : Bounded q16 (a 2) B.second (B.rounding 2) s.third

/-- The bounds for `WebRtcSpl_kAllPassFilter1`. -/
def bounds1 : CascadeBounds := ⟨2 ^ 26, 80300000, 171000000, 470000000, ![72700, 150500, 519100]⟩

/-- The bounds for `WebRtcSpl_kAllPassFilter2`. -/
def bounds2 : CascadeBounds := ⟨2 ^ 26, 110800000, 276800000, 809200000, ![97200, 260800, 1700400]⟩

theorem fits_bounds1 : CascadeFits kAllPassFilter1 bounds1 := by
  refine ⟨⟨?_, ?_, ?_, ?_, ?_⟩, ⟨?_, ?_, ?_, ?_, ?_⟩, ⟨?_, ?_, ?_, ?_, ?_⟩⟩ <;> decide

theorem fits_bounds2 : CascadeFits kAllPassFilter2 bounds2 := by
  refine ⟨⟨?_, ?_, ?_, ?_, ?_⟩, ⟨?_, ?_, ?_, ?_, ?_⟩, ⟨?_, ?_, ?_, ?_, ?_⟩⟩ <;> decide

section Cascade

variable {a : Fin 3 → ℤ} {B : CascadeBounds} {s : AllPassState} {x x' : ℕ → ℤ} {n : ℕ}

/-- **A cascade goes on where it stopped.** -/
theorem cascade_add (k : ℕ) : cascade a s x (n + k) = cascade a (cascadeState a s x n) (fun j => x (n + j)) k := by
  simp only [cascade, cascadeState]
  rw [filtered_add]
  congr 1
  funext j
  rw [filtered_add]
  congr 1
  funext i
  exact filtered_add ..

theorem cascadeState_add (k : ℕ) :
    cascadeState a s x (n + k) = cascadeState a (cascadeState a s x n) (fun j => x (n + j)) k := by
  have hfirst : (fun j => filtered q16 (a 0) s.first x (n + j)) =
      filtered q16 (a 0) (orbit q16 (a 0) s.first x n) fun j => x (n + j) := by
    funext j
    exact filtered_add ..
  have hsecond : (fun j => filtered q16 (a 1) s.second (filtered q16 (a 0) s.first x) (n + j)) =
      filtered q16 (a 1) (orbit q16 (a 1) s.second (filtered q16 (a 0) s.first x) n)
        (filtered q16 (a 0) (orbit q16 (a 0) s.first x n) fun j => x (n + j)) := by
    funext j
    rw [filtered_add, hfirst]
  simp only [cascadeState, orbit_add, hfirst, hsecond]

/-- A cascade reads no sample ahead. -/
theorem cascade_congr {k : ℕ} (h : ∀ j ≤ k, x j = x' j) : cascade a s x k = cascade a s x' k :=
  filtered_congr fun i hi => filtered_congr fun j hj => filtered_congr fun l hl => h l (by omega)

theorem cascadeState_congr (h : ∀ j < n, x j = x' j) : cascadeState a s x n = cascadeState a s x' n := by
  have hfirst : ∀ j < n, filtered q16 (a 0) s.first x j = filtered q16 (a 0) s.first x' j :=
    fun j hj => filtered_congr fun i hi => h i (by omega)
  simp only [cascadeState, AllPassState.mk.injEq]
  exact ⟨orbit_congr h, orbit_congr hfirst, orbit_congr fun j hj => filtered_congr fun i hi => hfirst i (by omega)⟩

/-- A cascade on a signal `z` that begins like `x` and goes on as `y`. -/
theorem cascade_cut {z y : ℕ → ℤ} (hx : ∀ k < n, z k = x k) (hy : ∀ k, z (n + k) = y k) (k : ℕ) :
    cascade a s z (n + k) = cascade a (cascadeState a s x n) y k := by
  rw [cascade_add, cascadeState_congr hx, show (fun j => z (n + j)) = y from funext hy]

theorem cascadeState_cut {z y : ℕ → ℤ} (hx : ∀ k < n, z k = x k) (hy : ∀ k, z (n + k) = y k) (k : ℕ) :
    cascadeState a s z (n + k) = cascadeState a (cascadeState a s x n) y k := by
  rw [cascadeState_add, cascadeState_congr hx, show (fun j => z (n + j)) = y from funext hy]

theorem within_zero (h : CascadeFits a B) (h₀ : 0 ≤ B.input) (h₁ : 0 ≤ B.first) (h₂ : 0 ≤ B.second)
    (hr : ∀ i, 0 ≤ B.rounding i) : Within a B .zero :=
  ⟨.zero (add_nonneg (by decide) h.first.nonneg) h₀ (hr 0), .zero (add_nonneg (by decide) h.second.nonneg) h₁ (hr 1),
    .zero (add_nonneg (by decide) h.third.nonneg) h₂ (hr 2)⟩

variable (h : CascadeFits a B) (hs : Within a B s) (hx : ∀ k < n, |x k| ≤ B.input)
include h hs hx

theorem CascadeFits.first_le {k : ℕ} (hk : k < n) : |filtered q16 (a 0) s.first x k| ≤ B.first :=
  h.first.filtered_le hs.first hx hk

theorem CascadeFits.second_le {k : ℕ} (hk : k < n) :
    |filtered q16 (a 1) s.second (filtered q16 (a 0) s.first x) k| ≤ B.second :=
  h.second.filtered_le hs.second (fun _ => h.first_le hs hx) hk

/-- The outputs are within their bound. -/
theorem CascadeFits.output_le {k : ℕ} (hk : k < n) : |cascade a s x k| ≤ B.output :=
  h.third.filtered_le hs.third (fun _ => h.second_le hs hx) hk

/-- The states stay within their bounds. -/
theorem CascadeFits.state : Within a B (cascadeState a s x n) :=
  ⟨h.first.orbit hs.first hx, h.second.orbit hs.second fun _ => h.first_le hs hx,
    h.third.orbit hs.third fun _ => h.second_le hs hx⟩

/-- **The three passes over the arrays are the cascade**, and nothing overflows. -/
theorem allPassQMF_eq (hn : 0 < n) (inData out : ℕ → ℤ) (hin : ∀ k < n, inData k = x k) :
    ∃ work, allPassQMF inData n out a s =
      some (work, fun k => if k < n then cascade a s x k else out k, cascadeState a s x n) := by
  have hfirst := allPassStage_of h.first hn hs.first hx inData out hin
  have hsecond := allPassStage_of h.second hn hs.second (fun _ => h.first_le hs hx)
    (fun k => if k < n then filtered q16 (a 0) s.first x k else out k) inData fun k hk => if_pos hk
  have hthird := allPassStage_of h.third hn hs.third (fun _ => h.second_le hs hx)
    (fun k => if k < n then filtered q16 (a 1) s.second (filtered q16 (a 0) s.first x) k else inData k)
    (fun k => if k < n then filtered q16 (a 0) s.first x k else out k) fun k hk => if_pos hk
  have hout : (fun k => if k < n then filtered q16 (a 2) s.third
      (filtered q16 (a 1) s.second (filtered q16 (a 0) s.first x)) k
      else if k < n then filtered q16 (a 0) s.first x k else out k) =
      fun k => if k < n then cascade a s x k else out k := by
    funext k
    split_ifs <;> rfl
  unfold allPassQMF
  simp only [if_neg hn.ne', hfirst, hsecond, hthird, hout, Option.bind_eq_bind, Option.bind_some]
  exact ⟨_, rfl⟩

end Cascade

/-! ## The filter bank -/

/-- The states of the two branches of a filter. -/
structure Branches where
  one : AllPassState
  two : AllPassState

/-- No sample has come in yet. -/
def Branches.zero : Branches := ⟨.zero, .zero⟩

/-- The low band. -/
def lowBandOf (s : Branches) (x : ℕ → Int16) (i : ℕ) : Int16 :=
  satW32ToW16 ((cascade kAllPassFilter1 s.one (oddHalf x) i + cascade kAllPassFilter2 s.two (evenHalf x) i + 1024) /
    2 ^ 11)

/-- The high band. -/
def highBandOf (s : Branches) (x : ℕ → Int16) (i : ℕ) : Int16 :=
  satW32ToW16 ((cascade kAllPassFilter1 s.one (oddHalf x) i - cascade kAllPassFilter2 s.two (evenHalf x) i + 1024) /
    2 ^ 11)

/-- The branches after `n` samples of each band. -/
def analysed (s : Branches) (x : ℕ → Int16) (n : ℕ) : Branches :=
  ⟨cascadeState kAllPassFilter1 s.one (oddHalf x) n, cascadeState kAllPassFilter2 s.two (evenHalf x) n⟩

/-- The full band. -/
def fullBandOf (s : Branches) (low high : ℕ → Int16) (k : ℕ) : Int16 :=
  if k % 2 = 0 then satW32ToW16 ((cascade kAllPassFilter1 s.two (diffHalf low high) (k / 2) + 512) / 2 ^ 10)
  else satW32ToW16 ((cascade kAllPassFilter2 s.one (sumHalf low high) (k / 2) + 512) / 2 ^ 10)

/-- The branches after `n` samples of each band. -/
def synthesised (s : Branches) (low high : ℕ → Int16) (n : ℕ) : Branches :=
  ⟨cascadeState kAllPassFilter2 s.one (sumHalf low high) n, cascadeState kAllPassFilter1 s.two (diffHalf low high) n⟩

section Congr

variable {s : Branches} {x x' low low' high high' : ℕ → Int16} {n i : ℕ}

section Analysis

variable (h : ∀ k < 2 * n, x k = x' k)
include h

theorem oddHalf_congr (hi : i < n) : oddHalf x i = oddHalf x' i := by rw [oddHalf, oddHalf, h _ (by omega)]

theorem evenHalf_congr (hi : i < n) : evenHalf x i = evenHalf x' i := by rw [evenHalf, evenHalf, h _ (by omega)]

theorem lowBandOf_congr (hi : i < n) : lowBandOf s x i = lowBandOf s x' i := by
  unfold lowBandOf
  rw [cascade_congr fun j hj => oddHalf_congr h (show j < n by omega),
    cascade_congr fun j hj => evenHalf_congr h (show j < n by omega)]

theorem highBandOf_congr (hi : i < n) : highBandOf s x i = highBandOf s x' i := by
  unfold highBandOf
  rw [cascade_congr fun j hj => oddHalf_congr h (show j < n by omega),
    cascade_congr fun j hj => evenHalf_congr h (show j < n by omega)]

theorem analysed_congr : analysed s x n = analysed s x' n := by
  unfold analysed
  rw [cascadeState_congr fun j hj => oddHalf_congr h hj, cascadeState_congr fun j hj => evenHalf_congr h hj]

end Analysis

section Synthesis

variable (hlow : ∀ i < n, low i = low' i) (hhigh : ∀ i < n, high i = high' i)
include hlow hhigh

theorem sumHalf_congr (hi : i < n) : sumHalf low high i = sumHalf low' high' i := by
  rw [sumHalf, sumHalf, hlow i hi, hhigh i hi]

theorem diffHalf_congr (hi : i < n) : diffHalf low high i = diffHalf low' high' i := by
  rw [diffHalf, diffHalf, hlow i hi, hhigh i hi]

theorem fullBandOf_congr {k : ℕ} (hk : k < 2 * n) : fullBandOf s low high k = fullBandOf s low' high' k := by
  unfold fullBandOf
  rw [cascade_congr fun j hj => diffHalf_congr hlow hhigh (show j < n by omega),
    cascade_congr fun j hj => sumHalf_congr hlow hhigh (show j < n by omega)]

theorem synthesised_congr : synthesised s low high n = synthesised s low' high' n := by
  unfold synthesised
  rw [cascadeState_congr fun j hj => sumHalf_congr hlow hhigh hj,
    cascadeState_congr fun j hj => diffHalf_congr hlow hhigh hj]

end Synthesis

end Congr

/-- Reachable branches of the analysis. -/
structure Branches.Analysing (s : Branches) : Prop where
  one : Within kAllPassFilter1 bounds1 s.one
  two : Within kAllPassFilter2 bounds2 s.two

/-- Reachable branches of the synthesis. -/
structure Branches.Synthesising (s : Branches) : Prop where
  one : Within kAllPassFilter2 bounds2 s.one
  two : Within kAllPassFilter1 bounds1 s.two

theorem within_zero1 : Within kAllPassFilter1 bounds1 .zero :=
  within_zero fits_bounds1 (by decide) (by decide) (by decide) (by decide)

theorem within_zero2 : Within kAllPassFilter2 bounds2 .zero :=
  within_zero fits_bounds2 (by decide) (by decide) (by decide) (by decide)

theorem Branches.analysing_zero : Branches.zero.Analysing := ⟨within_zero1, within_zero2⟩

theorem Branches.synthesising_zero : Branches.zero.Synthesising := ⟨within_zero2, within_zero1⟩

section Bank

variable {s : Branches} {x low high : ℕ → Int16} {n : ℕ}

theorem toInt_bounds (v : Int16) : -2 ^ 15 ≤ v.toInt ∧ v.toInt < 2 ^ 15 := ⟨v.le_toInt, v.toInt_lt⟩

theorem oddHalf_le (i : ℕ) : |oddHalf x i| ≤ 2 ^ 26 := by
  have := toInt_bounds (x (2 * i + 1))
  rw [abs_le]
  unfold oddHalf
  omega

theorem evenHalf_le (i : ℕ) : |evenHalf x i| ≤ 2 ^ 26 := by
  have := toInt_bounds (x (2 * i))
  rw [abs_le]
  unfold evenHalf
  omega

theorem sumHalf_le (i : ℕ) : |sumHalf low high i| ≤ 2 ^ 26 := by
  have := toInt_bounds (low i)
  have := toInt_bounds (high i)
  rw [abs_le]
  unfold sumHalf
  omega

theorem diffHalf_le (i : ℕ) : |diffHalf low high i| ≤ 2 ^ 26 := by
  have := toInt_bounds (low i)
  have := toInt_bounds (high i)
  rw [abs_le]
  unfold diffHalf
  omega

/-- The sum and the difference of the branches do not overflow. -/
theorem bandSample_eq {u v : ℤ} (hu : |u| ≤ bounds1.output) (hv : |v| ≤ bounds2.output) :
    bandSample (u + v) = some (satW32ToW16 ((u + v + 1024) / 2 ^ 11)) ∧
      bandSample (u - v) = some (satW32ToW16 ((u - v + 1024) / 2 ^ 11)) := by
  rw [abs_le] at hu hv
  simp only [bounds1, bounds2] at hu hv
  unfold bandSample
  constructor <;>
    rw [checked_of_range (by unfold intMin; omega) (by unfold intMax; omega), Option.bind_eq_bind, Option.bind_some,
      checked_of_range (by unfold intMin; omega) (by unfold intMax; omega)] <;>
    rfl

theorem fullSample_eq {v : ℤ} (hv : |v| ≤ bounds2.output) :
    fullSample v = some (satW32ToW16 ((v + 512) / 2 ^ 10)) := by
  rw [abs_le] at hv
  simp only [bounds2] at hv
  unfold fullSample
  rw [checked_of_range (by unfold intMin; omega) (by unfold intMax; omega)]
  rfl

/-- **The analysis**: nothing overflows, and the bands are those of the two cascades. -/
theorem analysisQMF_eq (junk : QmfLocals) (hs : s.Analysing) (hn : 0 < n) (hmax : n ≤ kMaxBandFrameLength) :
    analysisQMF junk x (2 * n) low high s.one s.two =
      some (fun i => if i < n then lowBandOf s x i else low i, fun i => if i < n then highBandOf s x i else high i,
        (analysed s x n).one, (analysed s x n).two) := by
  obtain ⟨_, hone⟩ := allPassQMF_eq fits_bounds1 hs.one (fun k _ => oddHalf_le k) hn
    (fun i => if i < n then oddHalf x i else junk.halfIn1 i) junk.filter1 fun k hk => if_pos hk
  obtain ⟨_, htwo⟩ := allPassQMF_eq fits_bounds2 hs.two (fun k _ => evenHalf_le k) hn
    (fun i => if i < n then evenHalf x i else junk.halfIn2 i) junk.filter2 fun k hk => if_pos hk
  unfold analysisQMF
  simp only [Nat.mul_div_cancel_left n (show 0 < 2 by decide), if_neg (not_lt.mpr hmax), forLoop_set_pair, hone, htwo,
    Option.bind_eq_bind, Option.bind_some]
  rw [forLoopM_eq_some (g := fun i bands =>
    (Function.update bands.1 i (lowBandOf s x i), Function.update bands.2 i (highBandOf s x i))), forLoop_set_pair]
  · rfl
  · intro i bands _ hi
    have hsample := bandSample_eq (fits_bounds1.output_le hs.one (fun k _ => oddHalf_le (x := x) k) hi)
      (fits_bounds2.output_le hs.two (fun k _ => evenHalf_le (x := x) k) hi)
    simp only [if_pos hi, hsample.1, hsample.2, Option.bind_some]
    rfl

/-- The analysis of memory that begins with a signal. -/
theorem analysisQMF_of (junk : QmfLocals) (low high : ℕ → Int16) (hs : s.Analysing) (hn : 0 < n)
    (hmax : n ≤ kMaxBandFrameLength) {mem : ℕ → Int16} (hmem : ∀ k < 2 * n, mem k = x k) :
    analysisQMF junk mem (2 * n) low high s.one s.two =
      some (fun i => if i < n then lowBandOf s x i else low i, fun i => if i < n then highBandOf s x i else high i,
        (analysed s x n).one, (analysed s x n).two) := by
  rw [analysisQMF_eq junk hs hn hmax, analysed_congr hmem]
  have hlow : (fun i => if i < n then lowBandOf s mem i else low i) =
      fun i => if i < n then lowBandOf s x i else low i := by
    funext i
    exact ite_congr rfl (lowBandOf_congr hmem) fun _ => rfl
  have hhigh : (fun i => if i < n then highBandOf s mem i else high i) =
      fun i => if i < n then highBandOf s x i else high i := by
    funext i
    exact ite_congr rfl (highBandOf_congr hmem) fun _ => rfl
  rw [hlow, hhigh]

theorem Branches.Analysing.analysed (hs : s.Analysing) : (analysed s x n).Analysing :=
  ⟨fits_bounds1.state hs.one fun k _ => oddHalf_le k, fits_bounds2.state hs.two fun k _ => evenHalf_le k⟩

theorem fullBandOf_even (i : ℕ) : fullBandOf s low high (2 * i) =
    satW32ToW16 ((cascade kAllPassFilter1 s.two (diffHalf low high) i + 512) / 2 ^ 10) := by
  rw [fullBandOf, if_pos (by omega), Nat.mul_div_cancel_left i (by decide)]

theorem fullBandOf_odd (i : ℕ) : fullBandOf s low high (2 * i + 1) =
    satW32ToW16 ((cascade kAllPassFilter2 s.one (sumHalf low high) i + 512) / 2 ^ 10) := by
  rw [fullBandOf, if_neg (by omega), show (2 * i + 1) / 2 = i by omega]

/-- **The synthesis**: nothing overflows, and the full band is that of the two cascades. -/
theorem synthesisQMF_eq (junk : QmfLocals) (out : ℕ → Int16) (hs : s.Synthesising) (hn : 0 < n)
    (hmax : n ≤ kMaxBandFrameLength) : synthesisQMF junk low high n out s.one s.two =
      some (fun k => if k < 2 * n then fullBandOf s low high k else out k,
        (synthesised s low high n).one, (synthesised s low high n).two) := by
  obtain ⟨_, hone⟩ := allPassQMF_eq fits_bounds2 hs.one (fun k _ => sumHalf_le k) hn
    (fun i => if i < n then sumHalf low high i else junk.halfIn1 i) junk.filter1 fun k hk => if_pos hk
  obtain ⟨_, htwo⟩ := allPassQMF_eq fits_bounds1 hs.two (fun k _ => diffHalf_le k) hn
    (fun i => if i < n then diffHalf low high i else junk.halfIn2 i) junk.filter2 fun k hk => if_pos hk
  unfold synthesisQMF
  simp only [if_neg (not_lt.mpr hmax), forLoop_set_pair, hone, htwo, Option.bind_eq_bind, Option.bind_some]
  rw [forLoopM_eq_some (g := fun i out => Function.update (Function.update out (2 * i) (fullBandOf s low high (2 * i)))
    (2 * i + 1) (fullBandOf s low high (2 * i + 1))), forLoop_set_two]
  · rfl
  · intro i out _ hi
    have heven := (fits_bounds1.output_le hs.two (fun k _ => @diffHalf_le low high k) hi).trans
      (show bounds1.output ≤ bounds2.output by decide)
    have hodd := fits_bounds2.output_le hs.one (fun k _ => @sumHalf_le low high k) hi
    simp only [if_pos hi, fullSample_eq heven, fullSample_eq hodd, Option.bind_some, fullBandOf_even, fullBandOf_odd]
    rfl

/-- The synthesis of memory that begins with two bands. -/
theorem synthesisQMF_of (junk : QmfLocals) (out : ℕ → Int16) (hs : s.Synthesising) (hn : 0 < n)
    (hmax : n ≤ kMaxBandFrameLength) {mem mem' : ℕ → Int16} (hlow : ∀ i < n, mem i = low i)
    (hhigh : ∀ i < n, mem' i = high i) : synthesisQMF junk mem mem' n out s.one s.two =
      some (fun k => if k < 2 * n then fullBandOf s low high k else out k,
        (synthesised s low high n).one, (synthesised s low high n).two) := by
  rw [synthesisQMF_eq junk out hs hn hmax, synthesised_congr hlow hhigh]
  have hfull : (fun k => if k < 2 * n then fullBandOf s mem mem' k else out k) =
      fun k => if k < 2 * n then fullBandOf s low high k else out k := by
    funext k
    exact ite_congr rfl (fullBandOf_congr hlow hhigh) fun _ => rfl
  rw [hfull]

theorem Branches.Synthesising.synthesised (hs : s.Synthesising) : (synthesised s low high n).Synthesising :=
  ⟨fits_bounds2.state hs.one fun k _ => sumHalf_le k, fits_bounds1.state hs.two fun k _ => diffHalf_le k⟩

end Bank

end AudioProcess
