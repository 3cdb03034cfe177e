import AudioProcess.Highpass.Model

/-!
# The filter is a convolution

* `tapInput`: the input `j` samples back, from the register where the input does not reach; `convolution`: the
  fifteen taps on it, in the order of the loop, and `convolution_real`: as a sum;
* `FilterInv`: the register holds the last inputs, not the filtered samples; **`filterInv_turn`**: one turn
  keeps it;
* `filterBlocks`: a sequence of calls on consecutive blocks; `filterBlocks_eq`: it is one loop;
* **`filter_eq_convolution`**.
-/

namespace AudioProcess

open CFloat CLoop

variable {F : Type} [CFloat F] {α : Type}

/-! ## The convolution -/

/-- `x[n - j]`, where `x[-1]`, …, `x[-14]` are the initial `w[1]`, …, `w[14]`. -/
def tapInput (state : FilterState F) (x : ℕ → F) (n j : ℕ) : F :=
  if j ≤ n then x (n - j) else state.w (j - n)

/-- The sum over `j < 15` of `filterCoef[j] * x[n - j]`. -/
def convolution (state : FilterState F) (x : ℕ → F) (n : ℕ) : F :=
  forLoop 0 coefLen (fun j sum => sum + tapInput state x n j * state.filterCoef j) (ofRat 0)

theorem convolution_real (state : FilterState ℝ) (x : ℕ → ℝ) (n : ℕ) :
    convolution state x n = ∑ j ∈ Finset.range 15, state.filterCoef j * tapInput state x n j := by
  rw [convolution, forLoop_sum, ofRat_real, Rat.cast_zero, zero_add, Finset.range_eq_Ico]
  exact Finset.sum_congr rfl fun j _ => mul_comm _ _

/-! ## One turn -/

omit [CFloat F] in
theorem updateState_w (state : FilterState F) (j : ℕ) :
    (updateState state).w j = if 1 ≤ j ∧ j < coefLen then state.w (j - 1) else state.w j := by
  have hloop : ∀ m ≤ coefLen - 1, ∀ j, forLoop 0 m (fun i w =>
      let j := coefLen - 1 - i
      Function.update w j (w (j - 1))) state.w j =
      if coefLen - m ≤ j ∧ j < coefLen then state.w (j - 1) else state.w j := by
    intro m
    induction m with
    | zero =>
        intro _ j
        rw [forLoop_self, if_neg (by omega)]
    | succ m ih =>
        intro hm j
        rw [forLoop_succ (Nat.zero_le m)]
        by_cases hj : j = coefLen - 1 - m
        · subst hj
          rw [Function.update_self, ih (by omega), if_neg (by omega), if_pos (by omega)]
        · rw [Function.update_of_ne hj, ih (by omega)]
          exact if_congr (by omega) rfl rfl
  exact (hloop (coefLen - 1) le_rfl j).trans (if_congr (by unfold coefLen; omega) rfl rfl)

/-- After the samples before `n`: the register holds the last inputs, the memory the outputs so far. -/
structure FilterInv (ty : SampleType F α) (state : FilterState F) (data : ℕ → α) (n : ℕ)
    (p : FilterState F × (ℕ → α)) : Prop where
  filterCoef : p.1.filterCoef = state.filterCoef
  w : ∀ k, 1 ≤ k → k < coefLen → p.1.w k = tapInput state (fun i => ty.load (data i)) n k
  data : ∀ i, p.2 i = if i < n then ty.store (convolution state (fun i => ty.load (data i)) i) else data i

variable {ty : SampleType F α} {state : FilterState F} {data : ℕ → α} {n : ℕ} {p : FilterState F × (ℕ → α)}

/-- **One turn.** -/
theorem filterInv_turn (h : FilterInv ty state data n p) :
    FilterInv ty state data (n + 1) (filterTurn ty n p) := by
  let x : ℕ → F := fun i => ty.load (data i)
  have hdata : p.2 n = data n := by rw [h.data, if_neg (lt_irrefl n)]
  have htap : ∀ j < coefLen, Function.update p.1.w 0 (ty.load (p.2 n)) j = tapInput state x n j := by
    intro j hj
    cases j with
    | zero => rw [Function.update_self, hdata, tapInput, if_pos (Nat.zero_le n), Nat.sub_zero]
    | succ j =>
        rw [Function.update_of_ne (Nat.succ_ne_zero j)]
        exact h.w (j + 1) (Nat.succ_pos j) hj
  have hsum : filterSum { p.1 with w := Function.update p.1.w 0 (ty.load (p.2 n)) } = convolution state x n := by
    refine forLoop_congr _ fun j sum _ hj => ?_
    show sum + Function.update p.1.w 0 (ty.load (p.2 n)) j * p.1.filterCoef j = _
    rw [htap j hj, h.filterCoef]
  refine ⟨h.filterCoef, fun k hk hk' => ?_, fun i => ?_⟩
  · rw [filterTurn, updateState_w, if_pos ⟨hk, hk'⟩]
    refine (htap (k - 1) (by omega)).trans ?_
    unfold tapInput
    split_ifs
    · congr 1
      omega
    · omega
    · omega
    · congr 1
      omega
  · show Function.update p.2 n (ty.store (filterSum _)) i = _
    rw [hsum]
    by_cases hi : i = n
    · subst hi
      rw [Function.update_self, if_pos (Nat.lt_succ_self i)]
    · rw [Function.update_of_ne hi, h.data]
      exact if_congr (by omega) rfl rfl

theorem filterInv_filterWith (ty : SampleType F α) (state : FilterState F) (data : ℕ → α) (n : ℕ) :
    FilterInv ty state data n (filterWith ty state data 0 n) := by
  have hstart : FilterInv ty state data 0 (state, data) := by
    refine ⟨rfl, fun k hk _ => ?_, fun i => (if_neg (Nat.not_lt_zero i)).symm⟩
    rw [tapInput, if_neg (by omega), Nat.sub_zero]
  unfold filterWith
  simp only [Nat.zero_add, Int.toNat_natCast]
  exact forLoop_induction (FilterInv ty state data) (Nat.zero_le n) hstart fun i p _ _ h => filterInv_turn h

/-! ## Blocks -/

/-- Calls of a filter on consecutive blocks of the given lengths, the first at offset `off`. -/
def filterBlocks (filter : FilterState F → (ℕ → α) → ℕ → ℤ → FilterState F × (ℕ → α)) :
    List ℕ → ℕ → FilterState F × (ℕ → α) → FilterState F × (ℕ → α)
  | [], _, p => p
  | len :: lens, off, p => filterBlocks filter lens (off + len) (filter p.1 p.2 off len)

theorem filterWith_eq (ty : SampleType F α) (state : FilterState F) (data : ℕ → α) (off len : ℕ) :
    filterWith ty state data off len = forLoop off (off + len) (filterTurn ty) (state, data) := by
  rw [filterWith, Int.toNat_natCast, forLoop_offset]

/-- **Calls on consecutive blocks are one call.** -/
theorem filterBlocks_eq (ty : SampleType F α) (lens : List ℕ) (off : ℕ) (p : FilterState F × (ℕ → α)) :
    filterBlocks (filterWith ty) lens off p = filterWith ty p.1 p.2 off lens.sum := by
  induction lens generalizing off p with
  | nil => exact (forLoop_self 0 _ _).symm
  | cons len lens ih =>
      rw [filterBlocks, ih, filterWith_eq, filterWith_eq, filterWith_eq, List.sum_cons, Nat.add_assoc]
      exact forLoop_append (Nat.le_add_right off len) (by omega) _ _

/-- A filter on consecutive blocks answers as one call on the whole sequence, with the same state after it,
and both give the convolution of the samples with the coefficients. -/
structure IsConvolution (filter : FilterState F → (ℕ → α) → ℕ → ℤ → FilterState F × (ℕ → α))
    (load : α → F) (store : F → α) (state : FilterState F) (data : ℕ → α) (lens : List ℕ) : Prop where
  blocks : filterBlocks filter lens 0 (state, data) = filter state data 0 lens.sum
  output : ∀ n < lens.sum,
    (filter state data 0 lens.sum).2 n = store (convolution state (fun i => load (data i)) n)
  register : ∀ k, 1 ≤ k → k < coefLen →
    (filter state data 0 lens.sum).1.w k = tapInput state (fun i => load (data i)) lens.sum k

theorem isConvolution_filterWith (ty : SampleType F α) (state : FilterState F) (data : ℕ → α)
    (lens : List ℕ) : IsConvolution (filterWith ty) ty.load ty.store state data lens := by
  have hinv := filterInv_filterWith ty state data lens.sum
  refine ⟨filterBlocks_eq ty lens 0 (state, data), fun n hn => ?_, hinv.w⟩
  rw [hinv.data, if_pos hn]

/-- **The filters are the 15-tap convolution, however the samples are split.** The `short` filter clamps and
truncates it, the `float` filter clamps it. -/
theorem filter_eq_convolution (state : FilterState F) (data16 : ℕ → Int16) (data : ℕ → F) (lens : List ℕ) :
    IsConvolution filterInt16 (fun v => ofRat v.toInt)
        (fun sum => Int16.ofInt (trunc (keepValueRange sum (ofRat (-32768)) (ofRat 32767))))
        state data16 lens ∧
      IsConvolution filterFloat id (fun sum => keepValueRange sum (ofRat (-1)) (ofRat 1)) state data lens :=
  ⟨isConvolution_filterWith int16Samples state data16 lens,
    isConvolution_filterWith floatSamples state data lens⟩

end AudioProcess
