import AudioProcess.Lib.Loop
import Mathlib.Data.List.Nodup
import Mathlib.Data.List.Count

/-!
# Ledgers

What a component has created, and what it owns of it.

* `Ledger`; `Ledger.Sound`: what is owned was created, and is owned once; `Ledger.Settled`: all that counts is
  owned; `Sound.settled_iff_count`: all that counts is owned exactly once;
* `Ledger.Change`: some entries are dropped, some are new, and some of these are kept; `Change.sound`,
  **`Change.settled_iff`**: a ledger stays settled exactly if nothing is dropped and all that counts is kept;
* `Keeps`: a step that may stop, and the condition under which it keeps a property; `Keeps.seq`, `Keeps.when`,
  **`Keeps.loop`**: its rules.
-/

/-! ## Created and owned -/

/-- What was created, and what of it is owned. -/
structure Ledger (α : Type*) where
  created : List α
  owned : List α

namespace Ledger

variable {α : Type*} {l l' : Ledger α} {dropped new kept : List α} {C : α → Prop}

/-- What is owned was created, and has one owner. -/
structure Sound (l : Ledger α) : Prop where
  nodup : l.owned.Nodup
  created : ∀ x ∈ l.owned, x ∈ l.created

/-- All that counts is owned. -/
def Settled (C : α → Prop) (l : Ledger α) : Prop := ∀ x ∈ l.created, C x → x ∈ l.owned

theorem Sound.settled_iff_count [DecidableEq α] (hl : l.Sound) :
    l.Settled C ↔ ∀ x ∈ l.created, C x → l.owned.count x = 1 := by
  constructor
  · intro h x hx hC
    exact List.count_eq_one_of_mem hl.nodup (h x hx hC)
  · intro h x hx hC
    exact List.count_pos_iff.mp (by rw [h x hx hC]; exact Nat.one_pos)

/-- From `l` to `l'`: the entries `dropped` have no owner any more, and of the entries `new` those in `kept` have
one. -/
structure Change (l l' : Ledger α) (dropped new kept : List α) : Prop where
  created : l'.created = l.created ++ new
  owned : (l.owned ++ kept).Perm (l'.owned ++ dropped)
  dropped_owned : ∀ x ∈ dropped, x ∈ l.owned
  kept_new : ∀ x ∈ kept, x ∈ new
  kept_nodup : kept.Nodup
  fresh : ∀ x ∈ new, x ∉ l.created

namespace Change

theorem nodup (hl : l.Sound) (h : Change l l' dropped new kept) : (l'.owned ++ dropped).Nodup := by
  refine h.owned.nodup_iff.mp (hl.nodup.append h.kept_nodup ?_)
  intro x howned hkept
  exact h.fresh x (h.kept_new x hkept) (hl.created x howned)

theorem sound (hl : l.Sound) (h : Change l l' dropped new kept) : l'.Sound where
  nodup := (List.nodup_append'.mp (h.nodup hl)).1
  created x hx := by
    have hold : x ∈ l.owned ++ kept := h.owned.mem_iff.mpr (List.mem_append_left _ hx)
    rw [h.created, List.mem_append]
    rcases List.mem_append.mp hold with howned | hkept
    · exact Or.inl (hl.created x howned)
    · exact Or.inr (h.kept_new x hkept)

/-- **When a change leaves the ledger settled.** -/
theorem settled_iff (hl : l.Sound) (hC : ∀ x ∈ l.owned, C x) (h : Change l l' dropped new kept) :
    l'.Settled C ↔ l.Settled C ∧ dropped = [] ∧ ∀ x ∈ new, C x → x ∈ kept := by
  have hmem : ∀ x, x ∈ l'.owned → x ∈ l.owned ∨ x ∈ kept := fun x hx =>
    List.mem_append.mp (h.owned.mem_iff.mpr (List.mem_append_left _ hx))
  have hcreated : ∀ x, x ∈ l'.created ↔ x ∈ l.created ∨ x ∈ new := fun x => by rw [h.created, List.mem_append]
  constructor
  · intro hsettled
    refine ⟨fun x hx hCx => ?_, List.eq_nil_iff_forall_not_mem.mpr fun x hx => ?_, fun x hx hCx => ?_⟩
    · rcases hmem x (hsettled x ((hcreated x).mpr (Or.inl hx)) hCx) with howned | hkept
      · exact howned
      · exact absurd hx (h.fresh x (h.kept_new x hkept))
    · have howned := h.dropped_owned x hx
      have hold := hsettled x ((hcreated x).mpr (Or.inl (hl.created x howned))) (hC x howned)
      exact (List.nodup_append'.mp (h.nodup hl)).2.2 hold hx
    · rcases hmem x (hsettled x ((hcreated x).mpr (Or.inr hx)) hCx) with howned | hkept
      · exact absurd (hl.created x howned) (h.fresh x hx)
      · exact hkept
  · rintro ⟨hsettled, rfl, hnew⟩ x hx hCx
    have hall : x ∈ l.owned ++ kept := by
      rcases (hcreated x).mp hx with hx | hx
      · exact List.mem_append_left _ (hsettled x hx hCx)
      · exact List.mem_append_right _ (hnew x hx hCx)
    rwa [h.owned.mem_iff, List.append_nil] at hall

end Change

/-! ## Steps that may stop -/

section Keeps

open CLoop

variable {σ : Type*} {I P : σ → Prop} {ok ok' clean clean' : Prop} {f g : σ → Bool × σ}

/-- From states of `I`, `f` goes on exactly when `ok`, leads to states of `I`, and keeps `P` exactly when `clean`;
where `P` does not hold before, it does not hold after. -/
structure Keeps (I P : σ → Prop) (ok clean : Prop) (f : σ → Bool × σ) : Prop where
  goes_on : ∀ s, I s → ((f s).1 = true ↔ ok)
  inv : ∀ s, I s → I (f s).2
  iff_clean : ∀ s, I s → (P (f s).2 ↔ P s ∧ clean)

theorem Keeps.skip : Keeps I P True True fun s => (true, s) where
  goes_on _ _ := iff_of_true rfl trivial
  inv _ hs := hs
  iff_clean _ _ := (and_iff_left trivial).symm

theorem Keeps.congr (h : Keeps I P ok clean f) (hok : ok ↔ ok') (hclean : clean ↔ clean') : Keeps I P ok' clean' f :=
  ⟨fun s hs => (h.goes_on s hs).trans hok, h.inv, fun s hs => (h.iff_clean s hs).trans (and_congr_right' hclean)⟩

/-- A step that is taken only under a condition. -/
theorem Keeps.when (c : Bool) (h : Keeps I P ok clean f) :
    Keeps I P (c → ok) (c → clean) fun s => if c then f s else (true, s) := by
  cases c with
  | false => exact Keeps.skip.congr (by simp) (by simp)
  | true => exact h.congr (by simp) (by simp)

/-- Two steps, the second of which is taken if the first goes on. -/
theorem Keeps.seq (hf : Keeps I P ok clean f) (hg : Keeps I P ok' clean' g) :
    Keeps I P (ok ∧ ok') (clean ∧ (ok → clean')) fun s => if ¬ (f s).1 then f s else g (f s).2 := by
  by_cases hok : ok
  · have hgo : ∀ s, I s → (if ¬ (f s).1 then f s else g (f s).2) = g (f s).2 := fun s hs =>
      if_neg (not_not.mpr ((hf.goes_on s hs).mpr hok))
    refine ⟨fun s hs => ?_, fun s hs => ?_, fun s hs => ?_⟩
    · rw [hgo s hs, hg.goes_on _ (hf.inv s hs), and_iff_right hok]
    · rw [hgo s hs]
      exact hg.inv _ (hf.inv s hs)
    · rw [hgo s hs, hg.iff_clean _ (hf.inv s hs), hf.iff_clean s hs, and_assoc, forall_prop_of_true hok]
  · have hstop : ∀ s, I s → (if ¬ (f s).1 then f s else g (f s).2) = f s := fun s hs =>
      if_pos fun hgo => hok ((hf.goes_on s hs).mp hgo)
    refine ⟨fun s hs => ?_, fun s hs => ?_, fun s hs => ?_⟩
    · rw [hstop s hs, hf.goes_on s hs]
      exact iff_of_false hok fun h => hok h.1
    · rw [hstop s hs]
      exact hf.inv s hs
    · rw [hstop s hs, hf.iff_clean s hs]
      simp [hok]

/-- **A loop of steps**, which ends when one of them stops. -/
theorem Keeps.loop {ok clean : ℕ → Prop} {f : ℕ → σ → Bool × σ} (n : ℕ)
    (hf : ∀ i, Keeps I P (ok i) (clean i) (f i)) :
    Keeps I P (∀ i < n, ok i) (∀ i < n, (∀ j < i, ok j) → clean i)
      fun s => forLoop 0 n (fun i r => if ¬ r.1 then r else f i r.2) (true, s) := by
  induction n with
  | zero => exact Keeps.skip.congr (by simp) (by simp)
  | succ n ih =>
      have hstep := ih.seq (hf n)
      refine ⟨fun s hs => ?_, fun s hs => ?_, fun s hs => ?_⟩
      · rw [forLoop_succ (Nat.zero_le n), Nat.forall_lt_succ_right]
        exact hstep.goes_on s hs
      · rw [forLoop_succ (Nat.zero_le n)]
        exact hstep.inv s hs
      · rw [forLoop_succ (Nat.zero_le n), Nat.forall_lt_succ_right]
        exact hstep.iff_clean s hs

end Keeps

end Ledger
