import Mathlib.Algebra.Group.Nat.Defs
import Mathlib.Data.List.Infix

/-!
# Byte strings

* `leNat`, `natLE`: little-endian numbers; `leNat_natLE`, `natLE_leNat`;
* `Occurs`, `First`: a pattern at a position of a string, and its first occurrence from a position on;
  `first_exists`, `First.unique`.
-/

namespace Bytes

/-! ## Little-endian numbers -/

/-- The number whose little-endian bytes are `bs`. -/
def leNat (bs : List UInt8) : ℕ := bs.foldr (fun b n => b.toNat + 256 * n) 0

/-- The `k` low bytes of `n`, lowest first. -/
def natLE : ℕ → ℕ → List UInt8
  | 0, _ => []
  | k + 1, n => UInt8.ofNat n :: natLE k (n / 256)

@[simp] theorem length_natLE (k n : ℕ) : (natLE k n).length = k := by
  induction k generalizing n with
  | zero => rfl
  | succ k ih => rw [natLE, List.length_cons, ih]

theorem leNat_natLE {k n : ℕ} (hn : n < 256 ^ k) : leNat (natLE k n) = n := by
  induction k generalizing n with
  | zero => exact (Nat.lt_one_iff.mp hn).symm
  | succ k ih =>
      rw [pow_succ] at hn
      have hdiv : n / 256 < 256 ^ k := Nat.div_lt_of_lt_mul (by omega)
      have hstep : leNat (natLE (k + 1) n) = (UInt8.ofNat n).toNat + 256 * leNat (natLE k (n / 256)) := rfl
      have hlow : (UInt8.ofNat n).toNat = n % 256 := UInt8.toNat_ofNat'
      rw [hstep, ih hdiv, hlow]
      omega

theorem leNat_lt (bs : List UInt8) : leNat bs < 256 ^ bs.length := by
  induction bs with
  | nil => exact Nat.one_pos
  | cons b bs ih =>
      have hb := b.toNat_lt
      have hstep : leNat (b :: bs) = b.toNat + 256 * leNat bs := rfl
      rw [hstep, List.length_cons, pow_succ]
      omega

theorem natLE_leNat (bs : List UInt8) : natLE bs.length (leNat bs) = bs := by
  induction bs with
  | nil => rfl
  | cons b bs ih =>
      have hb := b.toNat_lt
      have hstep : leNat (b :: bs) = b.toNat + 256 * leNat bs := rfl
      have hdiv : (b.toNat + 256 * leNat bs) / 256 = leNat bs := by omega
      have hlow : UInt8.ofNat (b.toNat + 256 * leNat bs) = b := by
        apply UInt8.toNat_inj.mp
        rw [UInt8.toNat_ofNat']
        omega
      rw [hstep, List.length_cons, natLE, hdiv, hlow, ih]

/-- A number read from a string gives its bytes back. -/
theorem natLE_leNat_take {bs : List UInt8} {k : ℕ} (h : k ≤ bs.length) :
    natLE k (leNat (bs.take k)) = bs.take k := by
  have hlen : (bs.take k).length = k := List.length_take_of_le h
  have h := natLE_leNat (bs.take k)
  rwa [hlen] at h

/-! ## Patterns -/

section Patterns

variable {α : Type*} {pat s : List α} {lo k k' : ℕ}

/-- `pat` stands at position `k` of `s`. -/
def Occurs (pat s : List α) (k : ℕ) : Prop := pat <+: s.drop k

instance [DecidableEq α] (pat s : List α) (k : ℕ) : Decidable (Occurs pat s k) :=
  inferInstanceAs (Decidable (_ <+: _))

/-- `k` is the first position of `pat` in `s` from `lo` on. -/
structure First (pat s : List α) (lo k : ℕ) : Prop where
  le : lo ≤ k
  occurs : Occurs pat s k
  first : ∀ i, lo ≤ i → i < k → ¬ Occurs pat s i

theorem Occurs.length_le (h : Occurs pat s k) : pat.length ≤ s.length - k := by
  have := List.IsPrefix.length_le h
  rwa [List.length_drop] at this

theorem First.unique (h : First pat s lo k) (h' : First pat s lo k') : k = k' := by
  rcases Nat.lt_trichotomy k k' with hlt | heq | hgt
  · exact absurd h.occurs (h'.first k h.le hlt)
  · exact heq
  · exact absurd h'.occurs (h.first k' h'.le hgt)

/-- An occurrence is not before the first. -/
theorem First.le_of_occurs (h : First pat s lo k) (hle : lo ≤ k') (hk : Occurs pat s k') : k ≤ k' := by
  by_contra hlt
  exact h.first k' hle (by omega) hk

theorem first_exists (hle : lo ≤ k) (hk : Occurs pat s k) : ∃ j, First pat s lo j := by
  induction k using Nat.strong_induction_on with
  | _ k ih =>
      by_cases h : ∃ i, lo ≤ i ∧ i < k ∧ Occurs pat s i
      · obtain ⟨i, hi, hik, hocc⟩ := h
        exact ih i hik hi hocc
      · exact ⟨k, hle, hk, fun i hi hik hocc => h ⟨i, hi, hik, hocc⟩⟩

theorem occurs_drop {n : ℕ} : Occurs pat (s.drop n) k ↔ Occurs pat s (n + k) := by
  unfold Occurs
  rw [List.drop_drop]

/-- Occurrences inside a prefix. -/
theorem occurs_of_prefix {s' : List α} (hs : s <+: s') (hfit : k + pat.length ≤ s.length) :
    Occurs pat s k ↔ Occurs pat s' k := by
  obtain ⟨t, rfl⟩ := hs
  unfold Occurs
  rw [List.drop_append_of_le_length (by omega)]
  constructor
  · exact fun h => h.trans (List.prefix_append _ _)
  · intro h
    exact List.prefix_of_prefix_length_le h (List.prefix_append _ _) (by rw [List.length_drop]; omega)

end Patterns

end Bytes
