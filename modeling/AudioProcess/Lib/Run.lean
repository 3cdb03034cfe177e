import Mathlib.Data.List.Forall2
import Mathlib.Data.List.Infix

/-!
# Runs of a step function

* `run`: the state after a list of inputs; `run_induction`: the invariant rule;
* `Always`, `EachStep`: a property of every state, or of every step, of a run; `eachStep_of_inv`,
  `EachStep.imp`;
* `outputs`: what a machine with outputs answers to a list of inputs; `outputs_eq_of_sim`: two machines
  related by a simulation answer alike; `outputs_forall₂`: on related inputs, they answer what is related;
  `run_outputs`: a machine that takes the answers of another;
* **`always_iff_eachStep`**: if good steps keep an invariant that gives the property, and a bad step
  breaks the property at once, then the property holds throughout a run exactly when every step of
  it is good; **`run_iff_eachStep`**: the same for the last state of a run.
-/

namespace Runs

variable {σ ι : Type*} (step : σ → ι → σ)

/-- The state after the inputs `l`. -/
def run (s : σ) (l : List ι) : σ := l.foldl step s

@[simp] theorem run_nil (s : σ) : run step s [] = s := rfl

@[simp] theorem run_cons (s : σ) (a : ι) (l : List ι) : run step s (a :: l) = run step (step s a) l :=
  rfl

theorem run_append (s : σ) (l l' : List ι) : run step s (l ++ l') = run step (run step s l) l' :=
  List.foldl_append

@[simp] theorem run_concat (s : σ) (l : List ι) (a : ι) :
    run step s (l ++ [a]) = step (run step s l) a := by
  rw [run_append]; rfl

/-- `P` holds in every state of the run of `l`, its first and last included. -/
def Always (P : σ → Prop) (s : σ) (l : List ι) : Prop := ∀ pre, pre <+: l → P (run step s pre)

/-- Every step of the run of `l` satisfies `Q` (of the state before it and its input). -/
def EachStep (Q : σ → ι → Prop) (s : σ) (l : List ι) : Prop :=
  ∀ pre a, pre ++ [a] <+: l → Q (run step s pre) a

variable {step}

theorem always_nil {P : σ → Prop} {s : σ} : Always step P s [] ↔ P s := by
  simp [Always]

theorem always_cons {P : σ → Prop} {s : σ} {a : ι} {l : List ι} :
    Always step P s (a :: l) ↔ P s ∧ Always step P (step s a) l := by
  constructor
  · intro h
    refine ⟨h [] (List.nil_prefix), fun pre hpre => ?_⟩
    exact h (a :: pre) ((List.prefix_cons_inj a).mpr hpre)
  · rintro ⟨h₀, h⟩ pre hpre
    cases pre with
    | nil => exact h₀
    | cons b pre =>
        obtain ⟨rfl, htail⟩ := List.cons_prefix_cons.mp hpre
        exact h pre htail

theorem eachStep_nil {Q : σ → ι → Prop} {s : σ} : EachStep step Q s [] := by
  intro pre a h
  simp at h

theorem eachStep_cons {Q : σ → ι → Prop} {s : σ} {a : ι} {l : List ι} :
    EachStep step Q s (a :: l) ↔ Q s a ∧ EachStep step Q (step s a) l := by
  constructor
  · intro h
    refine ⟨h [] a (by simp), fun pre b hpre => ?_⟩
    exact h (a :: pre) b ((List.prefix_cons_inj a).mpr hpre)
  · rintro ⟨h₀, h⟩ pre b hpre
    cases pre with
    | nil =>
        obtain ⟨rfl, -⟩ := List.cons_prefix_cons.mp hpre
        exact h₀
    | cons c pre =>
        obtain ⟨rfl, htail⟩ := List.cons_prefix_cons.mp hpre
        exact h pre b htail

/-- **The invariant rule.** -/
theorem run_induction {I : σ → Prop} {s : σ} (h₀ : I s) :
    ∀ {l : List ι}, (∀ s a, a ∈ l → I s → I (step s a)) → I (run step s l)
  | [], _ => h₀
  | a :: l, hI => by
    rw [run_cons]
    exact run_induction (hI s a List.mem_cons_self h₀) fun s b hb =>
      hI s b (List.mem_cons_of_mem _ hb)

/-- Steps from states of an invariant are good, so every step of a run is. -/
theorem eachStep_of_inv {I : σ → Prop} {Q : σ → ι → Prop} :
    ∀ {l : List ι} {s : σ}, I s → (∀ s, ∀ a ∈ l, I s → Q s a ∧ I (step s a)) → EachStep step Q s l
  | [], _, _, _ => eachStep_nil
  | a :: l, s, hs, h => by
    obtain ⟨hQ, hI⟩ := h s a List.mem_cons_self hs
    refine eachStep_cons.mpr ⟨hQ, eachStep_of_inv hI fun s b hb => ?_⟩
    exact h s b (List.mem_cons_of_mem _ hb)

/-- Steps that are good from states of an invariant have what good steps have there. -/
theorem EachStep.imp {I : σ → Prop} {Q Q' : σ → ι → Prop}
    (h : ∀ s a, I s → Q s a → Q' s a ∧ I (step s a)) :
    ∀ {l : List ι} {s : σ}, I s → EachStep step Q s l → EachStep step Q' s l
  | [], _, _, _ => eachStep_nil
  | a :: l, s, hs, hQ => by
    obtain ⟨hQa, hQl⟩ := eachStep_cons.mp hQ
    obtain ⟨hQ', hI⟩ := h s a hs hQa
    exact eachStep_cons.mpr ⟨hQ', EachStep.imp h hI hQl⟩

/-- **The exact-condition rule.** -/
theorem always_iff_eachStep {I P : σ → Prop} {Q : σ → ι → Prop} (hP : ∀ s, I s → P s)
    (hgood : ∀ s a, I s → Q s a → I (step s a)) (hbad : ∀ s a, I s → ¬ Q s a → ¬ P (step s a)) :
    ∀ {l : List ι} {s : σ}, I s → (Always step P s l ↔ EachStep step Q s l)
  | [], s, hs => iff_of_true (always_nil.mpr (hP s hs)) eachStep_nil
  | a :: l, s, hs => by
    rw [always_cons, eachStep_cons]
    by_cases hQ : Q s a
    · rw [always_iff_eachStep hP hgood hbad (hgood s a hs hQ)]
      simp [hP s hs, hQ]
    · refine iff_of_false (fun h => ?_) (fun h => hQ h.1)
      exact hbad s a hs hQ (h.2 [] List.nil_prefix)

/-- **The exact-condition rule for the last state**: a property that a step keeps exactly when it is good, and that no
step brings back, holds after a run exactly when it holds before and every step of the run is good. -/
theorem run_iff_eachStep {I P : σ → Prop} {Q : σ → ι → Prop} (hI : ∀ s a, I s → I (step s a))
    (hP : ∀ s a, I s → (P (step s a) ↔ P s ∧ Q s a)) :
    ∀ {l : List ι} {s : σ}, I s → (P (run step s l) ↔ P s ∧ EachStep step Q s l)
  | [], _, _ => (and_iff_left eachStep_nil).symm
  | a :: l, s, hs => by
    rw [run_cons, run_iff_eachStep hI hP (hI s a hs), hP s a hs, eachStep_cons, and_assoc]

/-! ## Machines with outputs -/

section Outputs

variable {τ ω : Type*}

/-- The answers to the inputs `l`. -/
def outputs (f : σ → ι → ω × σ) (s : σ) : List ι → List ω
  | [] => []
  | a :: l => (f s a).1 :: outputs f (f s a).2 l

/-- The state after the inputs `l`. -/
def final (f : σ → ι → ω × σ) (s : σ) (l : List ι) : σ := run (fun s a => (f s a).2) s l

theorem outputs_eq_of_sim {f : σ → ι → ω × σ} {g : τ → ι → ω × τ} (R : σ → τ → Prop)
    (h : ∀ s t a, R s t → (f s a).1 = (g t a).1 ∧ R (f s a).2 (g t a).2) :
    ∀ {l : List ι} {s : σ} {t : τ}, R s t → outputs f s l = outputs g t l
  | [], _, _, _ => rfl
  | a :: l, s, t, hR => by
    have hstep := h s t a hR
    rw [outputs, outputs, hstep.1, outputs_eq_of_sim R h hstep.2]

/-- A machine that takes the answers of another one as its inputs. -/
theorem run_outputs {f : σ → ι → ω × σ} {g : τ → ω → τ} (R : σ → τ → Prop) :
    ∀ {l : List ι} {s : σ} {t : τ}, (∀ s t, ∀ a ∈ l, R s t → R (f s a).2 (g t (f s a).1)) → R s t →
      R (final f s l) (run g t (outputs f s l))
  | [], _, _, _, hR => hR
  | a :: l, s, t, h, hR =>
    run_outputs (l := l) R (fun s t b hb => h s t b (List.mem_cons_of_mem _ hb)) (h s t a List.mem_cons_self hR)

/-- **Two machines in step**, on inputs and with answers that are related. -/
theorem outputs_forall₂ {κ υ : Type*} {f : σ → ι → ω × σ} {g : τ → κ → υ × τ} (R : σ → τ → Prop) {P : ι → κ → Prop}
    {S : ω → υ → Prop} (h : ∀ s t a b, R s t → P a b → S (f s a).1 (g t b).1 ∧ R (f s a).2 (g t b).2)
    {l : List ι} {m : List κ} (hlm : List.Forall₂ P l m) {s : σ} {t : τ} (hst : R s t) :
    List.Forall₂ S (outputs f s l) (outputs g t m) ∧ R (final f s l) (final g t m) := by
  induction hlm generalizing s t with
  | nil => exact ⟨.nil, hst⟩
  | cons hab _ ih =>
      have hstep := h s t _ _ hst hab
      have hrest := ih hstep.2
      exact ⟨.cons hstep.1 hrest.1, hrest.2⟩

end Outputs

end Runs
