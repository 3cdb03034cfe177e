import AudioProcess.Lib.Proc

/-!
# A heap of words

Blocks of words, for procedures that allocate. An allocator answers each call with a failure or with arbitrary
contents; the address of a block is the number of the call, so that no address is used twice and `0` is null.
Reading, writing and freeing outside the live blocks have no defined behaviour. Pointers are logged by the
variable `ν` that holds them.

* `Words`, `malloc`, `read`, `write`, `fill`, `free`, `safeFree`, `check`, with a rule for each;
* `Guarded`: a log in which every pointer is assigned and checked before it is used;
* `Shrinks`: blocks were freed, and nothing else was done.
-/

/-- An allocated block. -/
structure WordBlock where
  size : ℕ
  cell : ℕ → ℤ

/-- Overwrite the cell `i`. -/
def WordBlock.set (b : WordBlock) (i : ℕ) (x : ℤ) : WordBlock := { b with cell := Function.update b.cell i x }

@[simp] theorem WordBlock.cell_set_self (b : WordBlock) (i : ℕ) (x : ℤ) : (b.set i x).cell i = x :=
  Function.update_self ..

theorem WordBlock.cell_set_of_ne (b : WordBlock) {i j : ℕ} (x : ℤ) (h : j ≠ i) : (b.set i x).cell j = b.cell j :=
  Function.update_of_ne h ..

/-- What becomes of a pointer variable. -/
inductive PtrEvent (ν : Type)
  | assigned (v : ν)
  | checked (v : ν)
  | used (v : ν)
  deriving DecidableEq

/-- The heap after `calls` calls of `malloc`. -/
structure Words where
  block : ℤ → Option WordBlock
  calls : ℕ
  live_spec : ∀ p, p ≤ 0 ∨ (calls : ℤ) < p → block p = none

namespace Words

/-- The heap before any allocation. -/
def empty : Words := ⟨fun _ => none, 0, fun _ _ => rfl⟩

/-- Replace, or remove, a live block. -/
def put (s : Words) (p : ℤ) (hp : (s.block p).isSome) (b : Option WordBlock) : Words where
  block := Function.update s.block p b
  calls := s.calls
  live_spec := by
    intro q hq
    have hqp : q ≠ p := by
      rintro rfl
      rw [s.live_spec q hq] at hp
      cases hp
    rw [Function.update_of_ne hqp]
    exact s.live_spec q hq

/-- One more call of `malloc`, and its block. -/
def grow (s : Words) (b : Option WordBlock) : Words where
  block := Function.update s.block (s.calls + 1) b
  calls := s.calls + 1
  live_spec := by
    intro q hq
    rw [Function.update_of_ne (by omega)]
    exact s.live_spec q (by omega)

@[simp] theorem block_put_self (s : Words) {p : ℤ} (hp : (s.block p).isSome) (b : Option WordBlock) :
    (s.put p hp b).block p = b := Function.update_self ..

theorem block_put_of_ne (s : Words) {p q : ℤ} (hp : (s.block p).isSome) (b : Option WordBlock) (h : q ≠ p) :
    (s.put p hp b).block q = s.block q := Function.update_of_ne h ..

@[simp] theorem calls_grow (s : Words) (b : Option WordBlock) : (s.grow b).calls = s.calls + 1 := rfl

@[simp] theorem block_grow_self (s : Words) (b : Option WordBlock) : (s.grow b).block (s.calls + 1) = b :=
  Function.update_self ..

theorem block_grow_none (s : Words) (p : ℤ) : (s.grow none).block p = s.block p := by
  by_cases hp : p = s.calls + 1
  · rw [hp, block_grow_self, s.live_spec _ (by omega)]
  · exact Function.update_of_ne hp ..

theorem le_calls {s : Words} {p : ℤ} {b : WordBlock} (h : s.block p = some b) : 0 < p ∧ p ≤ s.calls := by
  by_contra hout
  rw [s.live_spec p (by omega)] at h
  cases h

theorem block_grow_of_live {s : Words} {p : ℤ} {b : WordBlock} (h : s.block p = some b) (b' : Option WordBlock) :
    (s.grow b').block p = some b := by
  have hle := le_calls h
  exact (Function.update_of_ne (by omega) ..).trans h

end Words

namespace Proc

variable {ν : Type}

/-- What `malloc` answers, call by call: `none` for a failure, or what the block holds. -/
abbrev Allocator : Type := ℕ → Option (ℕ → ℤ)

/-- `malloc` of a block of `n` words. -/
def malloc (alloc : Allocator) (n : ℤ) : Proc Words (PtrEvent ν) ℤ := fun s =>
  match alloc s.calls with
  | none => ⟨.next 0, s.grow none, []⟩
  | some junk => ⟨.next (s.calls + 1), s.grow (some ⟨n.toNat, junk⟩), []⟩

/-- `p[i]`, where `v` holds `p`. -/
def read (v : ν) (p : ℤ) (i : ℕ) : Proc Words (PtrEvent ν) ℤ := fun s =>
  match s.block p with
  | none => ⟨.undefined, s, [.used v]⟩
  | some b => if i < b.size then ⟨.next (b.cell i), s, [.used v]⟩ else ⟨.undefined, s, [.used v]⟩

/-- Change the block at `p`, of at least `n` words, where `v` holds `p`. -/
def update (v : ν) (p : ℤ) (n : ℕ) (f : WordBlock → WordBlock) : Proc Words (PtrEvent ν) Unit := fun s =>
  if hp : (s.block p).isSome then
    if n ≤ ((s.block p).get hp).size then ⟨.next (), s.put p hp (some (f ((s.block p).get hp))), [.used v]⟩
    else ⟨.undefined, s, [.used v]⟩
  else ⟨.undefined, s, [.used v]⟩

/-- `p[i] = x`, where `v` holds `p`. -/
def write (v : ν) (p : ℤ) (i : ℕ) (x : ℤ) : Proc Words (PtrEvent ν) Unit := update v p (i + 1) (·.set i x)

/-- `memset(p, 0, n)`, where `v` holds `p`. -/
def fill (v : ν) (p : ℤ) (n : ℕ) : Proc Words (PtrEvent ν) Unit :=
  update v p n fun b => { b with cell := fun i => if i < n then 0 else b.cell i }

/-- `free(p)`, for a pointer that is not null. -/
def free (p : ℤ) : Proc Words (PtrEvent ν) Unit := fun s =>
  if hp : (s.block p).isSome then ⟨.next (), s.put p hp none, []⟩ else ⟨.undefined, s, []⟩

/-- `if (p) free(p)`, where `v` holds `p`. -/
def safeFree (v : ν) (p : ℤ) : Proc Words (PtrEvent ν) Unit := do
  emit (.checked v)
  if p ≠ 0 then free p else pure ()

/-- `if (!p) goto end`, where `v` holds `p`. -/
def check (v : ν) (p : ℤ) : Proc Words (PtrEvent ν) Unit := do
  emit (.checked v)
  if p = 0 then jump else pure ()

section Rules

variable {U : Prop} {s : Words} {J : Words → Prop}

theorem ends_malloc (alloc : Allocator) (n : ℤ) {Q : ℤ → Words → Prop}
    (hnone : alloc s.calls = none → Q 0 (s.grow none))
    (hsome : ∀ junk, alloc s.calls = some junk → Q (s.calls + 1) (s.grow (some ⟨n.toNat, junk⟩))) :
    Ends U (malloc alloc n : Proc Words (PtrEvent ν) ℤ) s Q J := by
  unfold Ends malloc
  cases h : alloc s.calls with
  | none => exact hnone h
  | some junk => exact hsome junk h

theorem ends_read {v : ν} {p : ℤ} {i : ℕ} {b : WordBlock} {Q : ℤ → Words → Prop} (hb : s.block p = some b)
    (hi : i < b.size) : Ends U (read v p i) s Q J ↔ Q (b.cell i) s := by
  unfold Ends read
  rw [hb]
  simp only [if_pos hi]

theorem ends_read_dead {v : ν} {p : ℤ} {i : ℕ} {Q : ℤ → Words → Prop} (hb : s.block p = none) :
    Ends U (read v p i) s Q J ↔ U := by
  unfold Ends read
  rw [hb]

theorem ends_update {v : ν} {p : ℤ} {n : ℕ} {f : WordBlock → WordBlock} {b : WordBlock} {Q : Unit → Words → Prop}
    (hb : s.block p = some b) (hn : n ≤ b.size) :
    Ends U (update v p n f) s Q J ↔ Q () (s.put p (hb ▸ rfl) (some (f b))) := by
  have hp : (s.block p).isSome := hb ▸ rfl
  have hget : (s.block p).get hp = b := by simp only [hb, Option.get_some]
  unfold Ends update
  simp only [dif_pos hp, hget, if_pos hn]

theorem ends_update_dead {v : ν} {p : ℤ} {n : ℕ} {f : WordBlock → WordBlock} {Q : Unit → Words → Prop}
    (hb : s.block p = none) : Ends U (update v p n f) s Q J ↔ U := by
  unfold Ends update
  rw [dif_neg (by simp [hb])]

theorem ends_free {p : ℤ} {Q : Unit → Words → Prop} (hp : (s.block p).isSome) :
    Ends U (free p : Proc Words (PtrEvent ν) Unit) s Q J ↔ Q () (s.put p hp none) := by
  unfold Ends free
  rw [dif_pos hp]

theorem ends_free_dead {p : ℤ} {Q : Unit → Words → Prop} (hp : s.block p = none) :
    Ends U (free p : Proc Words (PtrEvent ν) Unit) s Q J ↔ U := by
  unfold Ends free
  rw [dif_neg (by simp [hp])]

/-- The rule for partial correctness. -/
theorem ends_read_true {v : ν} {p : ℤ} {i : ℕ} {Q : ℤ → Words → Prop}
    (hQ : ∀ b, s.block p = some b → i < b.size → Q (b.cell i) s) : Ends True (read v p i) s Q J := by
  unfold Ends read
  cases hb : s.block p with
  | none => trivial
  | some b =>
      simp only
      split_ifs with hi
      · exact hQ b hb hi
      · trivial

/-- The rule for partial correctness. -/
theorem ends_safeFree_true {v : ν} {p : ℤ} {Q : Unit → Words → Prop} (hnull : p = 0 → Q () s)
    (hfree : ∀ hp : (s.block p).isSome, Q () (s.put p hp none)) : Ends True (safeFree v p) s Q J := by
  rw [safeFree, ends_bind, ends_emit]
  split_ifs with hp
  · by_cases hlive : (s.block p).isSome
    · exact (ends_free hlive).mpr (hfree hlive)
    · exact (ends_free_dead (Option.not_isSome_iff_eq_none.mp hlive)).mpr trivial
  · exact hnull (not_not.mp hp)

end Rules

/-- Every pointer that is used was assigned before, and checked after that. -/
def Guarded (log : List (PtrEvent ν)) : Prop :=
  ∀ pre v, pre ++ [.used v] <+: log → List.Sublist [.assigned v, .checked v] pre

/-- Blocks were freed. -/
def Shrinks (s t : Words) : Prop := ∀ p, t.block p = s.block p ∨ t.block p = none

section Shrinks

instance : Std.Refl Shrinks := ⟨fun _ _ => .inl rfl⟩

instance : IsTrans Words Shrinks where
  trans s t u hst htu p := by
    rcases htu p with h | h
    · rw [h]
      exact hst p
    · exact .inr h

theorem keeps_emit (e : PtrEvent ν) : Keeps Shrinks (emit e) := fun s => refl_of Shrinks s

theorem keeps_read (v : ν) (p : ℤ) (i : ℕ) : Keeps Shrinks (read v p i) := fun s =>
  ends_read_true fun _ _ _ => refl_of Shrinks s

theorem keeps_safeFree (v : ν) (p : ℤ) : Keeps Shrinks (safeFree v p) := by
  refine fun s => ends_safeFree_true (fun _ => refl_of Shrinks s) fun hp q => ?_
  by_cases hq : q = p
  · subst hq
    exact .inr (Words.block_put_self s hp none)
  · exact .inl (Words.block_put_of_ne s hp none hq)

end Shrinks

end Proc
