import AudioProcess.Lib.Loop

/-!
# When a computation is defined

Computations that can fail, whose success is known beforehand: every step of them is defined under a condition
that does not depend on the state, as long as an invariant holds.

* `DefinedIff I P o`: `o` is defined exactly when `P`, and then with a value in `I`;
* `DefinedIff.bind`, `DefinedIff.guarded`, `DefinedIff.unless`, `DefinedIff.option`: its rules;
* **`forLoopM_defined`**: a loop is defined exactly when all its turns are.
-/

namespace CLoop

variable {α β σ : Type*}

/-- `o` is defined exactly when `P`, and then with a value in `I`. -/
structure DefinedIff (I : α → Prop) (P : Prop) (o : Option α) : Prop where
  isSome_iff : o.isSome ↔ P
  of_eq_some : ∀ x, o = some x → I x

variable {I : α → Prop} {J : β → Prop} {P Q : Prop} {o : Option α} {x : α}

theorem DefinedIff.pure (hx : I x) : DefinedIff I True (some x) :=
  ⟨iff_of_true rfl trivial, fun _ h => Option.some.inj h ▸ hx⟩

theorem DefinedIff.congr (h : DefinedIff I P o) (hPQ : P ↔ Q) : DefinedIff I Q o :=
  ⟨h.isSome_iff.trans hPQ, h.of_eq_some⟩

theorem DefinedIff.exists_eq_some (h : DefinedIff I P o) (hP : P) : ∃ x, o = some x ∧ I x := by
  obtain ⟨x, hx⟩ := Option.isSome_iff_exists.mp (h.isSome_iff.mpr hP)
  exact ⟨x, hx, h.of_eq_some x hx⟩

theorem DefinedIff.guarded [Decidable P] (hx : P → I x) : DefinedIff I P (if P then some x else none) := by
  split_ifs with hP
  · exact ⟨iff_of_true rfl hP, fun _ h => Option.some.inj h ▸ hx hP⟩
  · exact ⟨iff_of_false Bool.false_ne_true hP, fun _ h => absurd h (Option.some_ne_none _).symm⟩

/-- An element of a list. -/
theorem DefinedIff.getElem? {l : List α} {i : ℕ} (hl : ∀ x ∈ l, I x) : DefinedIff I (i < l.length) l[i]? := by
  refine ⟨?_, fun x hx => hl x (List.mem_of_getElem? hx)⟩
  simp

theorem DefinedIff.bind {f : α → Option β} (h : DefinedIff I P o) (hf : ∀ x, I x → DefinedIff J Q (f x)) :
    DefinedIff J (P ∧ Q) (o.bind f) := by
  cases o with
  | none =>
      have hP : ¬ P := fun hP => Bool.false_ne_true (h.isSome_iff.mpr hP)
      exact ⟨iff_of_false Bool.false_ne_true fun hPQ => hP hPQ.1, fun _ hx => absurd hx (Option.some_ne_none _).symm⟩
  | some x =>
      have hP : P := h.isSome_iff.mp rfl
      have hfx := hf x (h.of_eq_some x rfl)
      exact ⟨hfx.isSome_iff.trans (by simp [hP]), hfx.of_eq_some⟩

/-- A step that fails under a condition. -/
theorem DefinedIff.unless {c : Prop} [Decidable c] (h : DefinedIff I P o) :
    DefinedIff I (¬ c ∧ P) (if c then none else o) := by
  split_ifs with hc
  · exact ⟨iff_of_false Bool.false_ne_true fun hP => hP.1 hc, fun _ hx => absurd hx (Option.some_ne_none _).symm⟩
  · exact h.congr (and_iff_right hc).symm

/-- A step that is taken only under a condition. -/
theorem DefinedIff.option {f : α → Option α} {c : Prop} [Decidable c] (hx : I x) (hf : DefinedIff I P (f x)) :
    DefinedIff I (c → P) (if c then f x else some x) := by
  split_ifs with hc
  · exact hf.congr (by simp [hc])
  · exact (DefinedIff.pure hx).congr (by simp [hc])

/-- **A loop that can fail** is defined exactly when all its turns are. -/
theorem forLoopM_defined {I : σ → Prop} {P : ℕ → Prop} {n : ℕ} {body : ℕ → σ → Option σ} {s : σ} (hs : I s)
    (hbody : ∀ i s, I s → DefinedIff I (P i) (body i s)) :
    DefinedIff I (∀ i < n, P i) (forLoopM 0 n body s) := by
  induction n with
  | zero => exact (DefinedIff.pure hs).congr (by simp)
  | succ n ih =>
      rw [forLoopM_succ]
      exact (ih.bind fun s hs => hbody n s hs).congr Nat.forall_lt_succ_right.symm

end CLoop
