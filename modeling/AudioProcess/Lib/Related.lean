import AudioProcess.Lib.Loop
import AudioProcess.Lib.Run

/-!
# Two computations in step

Two computations that can fail, of which one fails exactly when the other does, and whose results are related:
`Option.Rel R o o'`.

* `rel_bind`, `rel_ite`, `rel_eq_iff`: the rules; `forLoopM_optionRel`: two loops;
* `outputsM`: the answers of a machine whose steps can fail; **`outputsM_eq_of_sim`**: two machines in step answer
  alike; **`outputsM_components`**: a machine that is many smaller ones answers as they do.
-/

namespace CLoop

variable {α β γ δ σ τ : Type*} {R : α → β → Prop} {S : γ → δ → Prop} {o : Option α} {o' : Option β}

theorem rel_bind {f : α → Option γ} {g : β → Option δ} (h : Option.Rel R o o')
    (hfg : ∀ x y, R x y → Option.Rel S (f x) (g y)) : Option.Rel S (o.bind f) (o'.bind g) := by
  cases h with
  | none => exact Option.Rel.none
  | some hxy => exact hfg _ _ hxy

theorem rel_ite {c c' : Prop} [Decidable c] [Decidable c'] {p : Option α} {p' : Option β} (hc : c ↔ c')
    (h : c → Option.Rel R o o') (h' : ¬ c → Option.Rel R p p') :
    Option.Rel R (if c then o else p) (if c' then o' else p') := by
  by_cases hcase : c
  · rw [if_pos hcase, if_pos (hc.mp hcase)]
    exact h hcase
  · rw [if_neg hcase, if_neg fun h' => hcase (hc.mpr h')]
    exact h' hcase

theorem rel_eq_iff {o' : Option α} : Option.Rel Eq o o' ↔ o = o' := by
  constructor
  · intro h
    cases h with
    | none => rfl
    | some hxy => rw [hxy]
  · rintro rfl
    cases o with
    | none => exact Option.Rel.none
    | some x => exact Option.Rel.some rfl

/-- **Two loops in step.** -/
theorem forLoopM_optionRel {R : σ → τ → Prop} {n : ℕ} {body : ℕ → σ → Option σ} {body' : ℕ → τ → Option τ} {s : σ}
    {t : τ} (h₀ : R s t) (hstep : ∀ i < n, ∀ s t, R s t → Option.Rel R (body i s) (body' i t)) :
    Option.Rel R (forLoopM 0 n body s) (forLoopM 0 n body' t) :=
  forLoop_rel (Option.Rel R) (Option.Rel.some h₀) fun i _ _ _ hi h =>
    rel_bind h fun s t hst => hstep i hi s t hst

/-! ## Machines whose steps can fail -/

variable {ι ω : Type*}

/-- The answers to the inputs `l`, when no step fails. -/
def outputsM (f : σ → ι → Option (ω × σ)) (s : σ) : List ι → Option (List ω)
  | [] => some []
  | a :: l => (f s a).bind fun r => (outputsM f r.2 l).map (r.1 :: ·)

/-- Answers that are changed one by one. -/
theorem outputsM_map {υ : Type*} (f : σ → ι → Option (ω × σ)) (g : ω → υ) (s : σ) (l : List ι) :
    outputsM (fun s a => (f s a).map (Prod.map g id)) s l = (outputsM f s l).map (List.map g) := by
  induction l generalizing s with
  | nil => rfl
  | cons a l ih =>
      rw [outputsM, outputsM]
      cases f s a with
      | none => rfl
      | some r =>
          rw [Option.map_some, Option.bind_some, Option.bind_some, Option.map_map]
          exact (congrArg (Option.map _) (ih r.2)).trans (Option.map_map _ _ _)

/-- **Two machines in step answer alike.** -/
theorem outputsM_eq_of_sim {f : σ → ι → Option (ω × σ)} {g : τ → ι → Option (ω × τ)} (R : σ → τ → Prop)
    (h : ∀ s t a, R s t → Option.Rel (fun p q => p.1 = q.1 ∧ R p.2 q.2) (f s a) (g t a)) {s : σ} {t : τ}
    (hst : R s t) (l : List ι) : outputsM f s l = outputsM g t l := by
  induction l generalizing s t with
  | nil => rfl
  | cons a l ih =>
      refine rel_eq_iff.mp (rel_bind (h s t a hst) ?_)
      rintro p q ⟨heq, hR⟩
      rw [heq, ih hR]
      exact rel_eq_iff.mpr rfl

/-- **A machine made of components**, each of which reads its part of the input and gives its part of the answer. -/
theorem outputsM_components {I κ υ : Type*} {f : σ → ι → Option (ω × σ)} {g : τ → κ → υ × τ} {P : I → Prop}
    (R : σ → (I → τ) → Prop) (part : I → ι → κ) (answer : I → ω → υ)
    (h : ∀ s c a, R s c → ∃ o s', f s a = some (o, s') ∧ (∀ i, P i → answer i o = (g (c i) (part i a)).1) ∧
      R s' fun i => (g (c i) (part i a)).2) {s : σ} {c : I → τ} (hs : R s c) (l : List ι) :
    ∃ os, outputsM f s l = some os ∧
      ∀ i, P i → os.map (answer i) = Runs.outputs g (c i) (l.map (part i)) := by
  induction l generalizing s c with
  | nil => exact ⟨[], rfl, fun _ _ => rfl⟩
  | cons a l ih =>
      obtain ⟨o, s', hstep, hanswer, hnext⟩ := h s c a hs
      obtain ⟨os, hrun, hrest⟩ := ih hnext
      refine ⟨o :: os, ?_, fun i hi => ?_⟩
      · rw [outputsM, hstep, Option.bind_some, hrun]
        rfl
      · rw [List.map_cons, hanswer i hi, hrest i hi]
        rfl

end CLoop
