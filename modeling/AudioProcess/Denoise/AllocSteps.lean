import AudioProcess.Denoise.Alloc

/-!
# `blockThreshold_init` up to the first failing allocation

* `Holds`: what is known of the handle while `blockThreshold_init` fills it in, with a rule for each statement;
* `At`: so many allocations were made, all of them successful; `Broken`: one failed after the window's did not;
  `WindowFailed`: the window's failed;
* `ends_initWindow`, `ends_initSizeFields`, `ends_initBlocks`: the three phases.
-/

namespace AudioProcess

open CInt Proc

/-- The handle is allocated, and the fields have the values that `k` knows. -/
def Holds (handle : ℤ) (k : Field → Option ℤ) (s : Words) : Prop :=
  ∃ b, s.block handle = some b ∧ b.size = Field.count ∧ ∀ f x, k f = some x → b.cell f.offset = x

/-- The block at `p` has `n` words. -/
def Sized (s : Words) (p : ℤ) (n : ℕ) : Prop := ∃ b, s.block p = some b ∧ b.size = n

section Rules

variable {U : Prop} {J : Words → Prop} {handle : ℤ} {k : Field → Option ℤ} {s : Words}

theorem Holds.weaken {k' : Field → Option ℤ} (hs : Holds handle k s) (hk : ∀ f x, k' f = some x → k f = some x) :
    Holds handle k' s := by
  obtain ⟨b, hb, hsize, hcell⟩ := hs
  exact ⟨b, hb, hsize, fun f x hx => hcell f x (hk f x hx)⟩

theorem Holds.getField (hs : Holds handle k s) {f : Field} {x : ℤ} (hx : k f = some x) {Q : ℤ → Words → Prop} :
    Ends U (getField handle f) s Q J ↔ Q x s := by
  obtain ⟨b, hb, hsize, hcell⟩ := hs
  rw [AudioProcess.getField, ends_read hb (hsize ▸ f.offset_lt), hcell f x hx]

/-- A field is overwritten, and nothing else. -/
theorem Holds.setField (hs : Holds handle k s) (f : Field) (x : ℤ) {Q : Unit → Words → Prop}
    (hQ : ∀ t : Words, Holds handle (Function.update k f (some x)) t → t.calls = s.calls →
      (∀ p ≠ handle, t.block p = s.block p) → Q () t) : Ends U (setField handle f x) s Q J := by
  obtain ⟨b, hb, hsize, hcell⟩ := hs
  rw [AudioProcess.setField, write, ends_update hb (hsize ▸ f.offset_lt)]
  refine hQ _ ⟨_, Words.block_put_self s _ _, hsize, fun g y hy => ?_⟩ rfl
    fun p hp => Words.block_put_of_ne s _ _ hp
  by_cases hg : g = f
  · subst hg
    rw [Function.update_self] at hy
    rw [WordBlock.cell_set_self, Option.some.inj hy]
  · rw [Function.update_of_ne hg] at hy
    rw [WordBlock.cell_set_of_ne _ _ fun h => hg (Field.offset_inj h), hcell g y hy]

theorem ends_assignField (hs : Holds handle k s) (f : Field) (p : ℤ) {Q : Unit → Words → Prop}
    (hQ : ∀ t : Words, Holds handle (Function.update k f (some p)) t → t.calls = s.calls →
      (∀ q ≠ handle, t.block q = s.block q) → Q () t) : Ends U (assignField handle f p) s Q J := by
  refine (ends_bind _).mpr (hs.setField f p fun t ht hcalls hframe => ?_)
  exact hQ t ht hcalls hframe

/-- `handle->f = malloc(n)`: on a failure the field is null, and `J` must hold. -/
theorem ends_mallocField {alloc : Allocator} (hs : Holds handle k s) (f : Field) (n : ℤ)
    {Q : Unit → Words → Prop}
    (hfail : alloc s.calls = none → ∀ t : Words, Holds handle (Function.update k f (some 0)) t →
      (∀ q ≠ handle, t.block q = (s.grow none).block q) → J t)
    (hnext : (alloc s.calls).isSome → ∀ (t : Words) (p : ℤ), Holds handle (Function.update k f (some p)) t →
      t.calls = s.calls + 1 → Sized t p n.toNat → 0 < p → p ≠ handle → Q () t) :
    Ends U (mallocField alloc handle f n) s Q J := by
  obtain ⟨b, hb, hsize, hcell⟩ := id hs
  have hgrow : ∀ b', Holds handle k (s.grow b') := fun b' => ⟨b, Words.block_grow_of_live hb b', hsize, hcell⟩
  have hcheck : ∀ (t : Words) (p : ℤ), Holds handle (Function.update k f (some p)) t →
      (Ends U (checkField handle f) t Q J ↔ if p = 0 then J t else Q () t) := by
    intro t p ht
    rw [checkField, ends_bind, ht.getField (Function.update_self ..), check, ends_bind, ends_emit]
    split_ifs <;> rfl
  refine (ends_bind _).mpr (ends_malloc alloc n (fun hnone => ?_) fun junk hsome => ?_)
  · refine (ends_bind _).mpr (ends_assignField (hgrow none) f 0 fun t ht _ hframe => ?_)
    rw [hcheck t 0 ht, if_pos rfl]
    exact hfail hnone t ht hframe
  · refine (ends_bind _).mpr (ends_assignField (hgrow _) f _ fun t ht hcalls hframe => ?_)
    have hle := Words.le_calls hb
    have hne : (s.calls + 1 : ℤ) ≠ handle := by omega
    rw [hcheck t _ ht, if_neg (by omega)]
    refine hnext (hsome ▸ rfl) t _ ht hcalls ⟨⟨n.toNat, junk⟩, ?_, rfl⟩ (by omega) hne
    rw [hframe _ hne, Words.block_grow_self]

/-- The floats of a buffer are overwritten, and nothing else. -/
theorem ends_fillField (hs : Holds handle k s) {f : Field} {p : ℤ} (hp : k f = some p) (hne : p ≠ handle) {n : ℤ}
    (hlive : Sized s p n.toNat) {Q : Unit → Words → Prop}
    (hQ : ∀ t : Words, Holds handle k t → t.calls = s.calls → Q () t) : Ends U (fillField handle f n) s Q J := by
  obtain ⟨b, hb, hsize, hcell⟩ := id hs
  obtain ⟨c, hc, hn⟩ := hlive
  rw [fillField, ends_bind, hs.getField hp, fill, ends_update hc hn.ge]
  exact hQ _ ⟨b, (Words.block_put_of_ne s _ _ hne.symm).trans hb, hsize, hcell⟩ rfl

/-- `handle->f[i]` is `q`, in an array of `n` entries at `p`. -/
def Entry (s : Words) (p : ℤ) (n i : ℕ) (q : ℤ) : Prop :=
  ∃ b, s.block p = some b ∧ b.size = n ∧ b.cell i = q

theorem Entry.sized {p q : ℤ} {n i : ℕ} (h : Entry s p n i q) : Sized s p n := by
  obtain ⟨b, hb, hn, -⟩ := h
  exact ⟨b, hb, hn⟩

theorem ends_getEntry (hs : Holds handle k s) {f : Field} {p : ℤ} (hp : k f = some p) {n i : ℕ} (hi : i < n) {q : ℤ}
    (hq : Entry s p n i q) {Q : ℤ → Words → Prop} : Ends U (getEntry handle f i) s Q J ↔ Q q s := by
  obtain ⟨b, hb, rfl, rfl⟩ := hq
  rw [getEntry, ends_bind, hs.getField hp, ends_read hb hi]

theorem ends_assignEntry (hs : Holds handle k s) {f : Field} {p : ℤ} (hp : k f = some p) (hne : p ≠ handle)
    {n i : ℕ} (hi : i < n) (hlive : Sized s p n) (q : ℤ) {Q : Unit → Words → Prop}
    (hQ : ∀ t : Words, Holds handle k t → t.calls = s.calls → Entry t p n i q →
      (∀ r ≠ p, t.block r = s.block r) → Q () t) : Ends U (assignEntry handle f i q) s Q J := by
  obtain ⟨b, hb, hsize, hcell⟩ := id hs
  obtain ⟨c, hc, rfl⟩ := hlive
  rw [assignEntry, ends_bind, hs.getField hp, ends_bind, write, ends_update hc hi, ends_emit]
  refine hQ _ ⟨b, (Words.block_put_of_ne s _ _ hne.symm).trans hb, hsize, hcell⟩ rfl
    ⟨c.set i q, Words.block_put_self s _ _, rfl, WordBlock.cell_set_self c i q⟩
    fun r hr => Words.block_put_of_ne s _ _ hr

theorem ends_fillEntry (hs : Holds handle k s) {f : Field} {p q : ℤ} (hp : k f = some p) {rows i : ℕ} (hi : i < rows)
    (hq : Entry s p rows i q) (hqh : q ≠ handle) (hqp : q ≠ p) {n : ℤ} (hlive : Sized s q n.toNat)
    {Q : Unit → Words → Prop}
    (hQ : ∀ t : Words, Holds handle k t → t.calls = s.calls → Entry t p rows i q → Q () t) :
    Ends U (fillEntry handle f i n) s Q J := by
  obtain ⟨b, hb, hsize, hcell⟩ := id hs
  obtain ⟨d, hd, hn⟩ := hlive
  rw [fillEntry, ends_bind, ends_getEntry hs hp hi hq, fill, ends_update hd hn.ge]
  obtain ⟨c, hc, hrows, hci⟩ := hq
  exact hQ _ ⟨b, (Words.block_put_of_ne s _ _ hqh.symm).trans hb, hsize, hcell⟩ rfl
    ⟨c, (Words.block_put_of_ne s _ _ hqp.symm).trans hc, hrows, hci⟩

theorem ends_checkEntry (hs : Holds handle k s) {f : Field} {p : ℤ} (hp : k f = some p) {n i : ℕ} (hi : i < n)
    {q : ℤ} (hq : Entry s p n i q) {Q : Unit → Words → Prop} :
    Ends U (checkEntry handle f i) s Q J ↔ if q = 0 then J s else Q () s := by
  rw [checkEntry, ends_bind, ends_getEntry hs hp hi hq, check, ends_bind, ends_emit]
  split_ifs <;> rfl

/-- The turns of a loop over a field that no turn changes. -/
theorem ends_forField {bound : Field} {m : ℤ} {body : ℕ → MemProc Unit} (hs : Holds handle k s)
    (hm : k bound = some m) (I : ℕ → Words → Prop) (h₀ : I 0 s)
    (h : ∀ i < m.toNat, ∀ t, I i t → Ends U (body i) t (fun _ t' => Holds handle k t' ∧ I (i + 1) t') J) :
    Ends U (forField handle bound body) s (fun _ => I m.toNat) J := by
  rw [forField, ends_bind, hs.getField hm]
  refine ends_loop I h₀ fun i hi t ht => (h i hi t ht).bind fun _ t' ht' => ?_
  rw [ends_bind, ht'.1.getField hm]
  exact ht'.2

end Rules

/-! ## Up to the first failure -/

/-- All allocations of `blockThreshold_init` succeed. -/
def AllSucceed (alloc : Allocator) : Prop := ∀ i < 47, (alloc i).isSome

/-- So far `n` allocations were made, and they succeeded. -/
structure At (alloc : Allocator) (handle : ℤ) (k : Field → Option ℤ) (n : ℕ) (s : Words) : Prop where
  holds : Holds handle k s
  calls : s.calls = n
  succeeded : ∀ i < n, (alloc i).isSome

/-- An allocation has failed, and the window is allocated. -/
structure Broken (alloc : Allocator) (handle : ℤ) (s : Words) : Prop where
  failed : ¬ AllSucceed alloc
  window : (alloc 1).isSome
  handle : ∃ b, s.block handle = some b ∧ b.cell Field.winHanning.offset ≠ 0

section Steps

variable {U : Prop} {alloc : Allocator} {handle p w : ℤ} {k : Field → Option ℤ} {f : Field} {n : ℕ} {s : Words}

theorem At.broken (hs : At alloc handle k n s) (h₂ : 2 ≤ n) (hn : n < 47) (hfail : alloc n = none) {t : Words}
    {k' : Field → Option ℤ} (ht : Holds handle k' t) (hw : k' .winHanning = some w) (hw₀ : w ≠ 0) :
    Broken alloc handle t where
  failed hall := by
    have hsome := hall n hn
    rw [hfail] at hsome
    cases hsome
  window := hs.succeeded 1 (by omega)
  handle := by
    obtain ⟨b, hb, -, hcell⟩ := ht
    exact ⟨b, hb, hcell _ _ hw ▸ hw₀⟩

theorem At.next {k' : Field → Option ℤ} {t : Words} (hs : At alloc handle k n s) (hsome : (alloc n).isSome)
    (ht : Holds handle k' t) (hcalls : t.calls = n + 1) : At alloc handle k' (n + 1) t where
  holds := ht
  calls := hcalls
  succeeded i hi := by
    rcases Nat.lt_succ_iff_lt_or_eq.mp hi with hlt | rfl
    · exact hs.succeeded i hlt
    · exact hsome

theorem At.mallocField (hs : At alloc handle k n s) (h₂ : 2 ≤ n) (hn : n < 47) {f : Field}
    (hw : k .winHanning = some w) (hw₀ : w ≠ 0) (hf : k f = none) (m : ℤ) :
    Ends U (mallocField alloc handle f m) s (fun _ t => ∃ p, p ≠ handle ∧ Sized t p m.toNat ∧
      At alloc handle (Function.update k f (some p)) (n + 1) t) (Broken alloc handle) := by
  have hne : Field.winHanning ≠ f := by
    rintro rfl
    rw [hw] at hf
    cases hf
  refine ends_mallocField hs.holds f m (fun hfail t ht _ => ?_) fun hsome t p ht hcalls hlive _ hp => ?_
  · rw [hs.calls] at hfail
    exact hs.broken h₂ hn hfail ht ((Function.update_of_ne hne ..).trans hw) hw₀
  · rw [hs.calls] at hsome hcalls
    exact ⟨p, hp, hlive, hs.next hsome ht hcalls⟩

/-- A field that was not known is known now. -/
theorem known_update {f : Field} (hf : k f = none) (v : Option ℤ) {g : Field} {x : ℤ} (hg : k g = some x) :
    Function.update k f v g = some x := by
  refine (Function.update_of_ne ?_ ..).trans hg
  rintro rfl
  rw [hf] at hg
  cases hg

theorem At.forget (hs : At alloc handle (Function.update k f (some p)) n s) (hf : k f = none) :
    At alloc handle k n s where
  holds := hs.holds.weaken fun _ _ => known_update hf _
  calls := hs.calls
  succeeded := hs.succeeded

theorem At.mallocBuffer (hs : At alloc handle k n s) (h₂ : 2 ≤ n) (hn : n < 47) (hw : k .winHanning = some w)
    (hw₀ : w ≠ 0) (hf : k f = none) (m : ℤ) : Ends U (mallocBuffer alloc handle f m) s
      (fun _ => At alloc handle k (n + 1)) (Broken alloc handle) := by
  refine (hs.mallocField h₂ hn hw hw₀ hf m).bind ?_
  rintro - t ⟨p, hp, hlive, ht⟩
  refine ends_fillField ht.holds (Function.update_self ..) hp hlive fun t' ht' hcalls => ?_
  have hnext : At alloc handle (Function.update k f (some p)) (n + 1) t' :=
    ⟨ht', hcalls.trans ht.calls, ht.succeeded⟩
  exact hnext.forget hf

theorem At.mallocCfg (hs : At alloc handle k n s) (h₂ : 2 ≤ n) (hn : n < 47) (hw : k .winHanning = some w)
    (hw₀ : w ≠ 0) (hf : k f = none) {m : ℤ} (hwin : k .winSize = some (2 * m)) :
    Ends U (mallocCfg alloc handle f) s (fun _ => At alloc handle k (n + 1)) (Broken alloc handle) := by
  have heven : ¬ 2 * m % 2 = 1 := by omega
  rw [AudioProcess.mallocCfg, ends_bind, hs.holds.getField hwin, kissFftrAlloc, if_neg heven]
  refine (hs.mallocField h₂ hn hw hw₀ hf 1).mono ?_ fun _ ht => ht
  rintro - t ⟨p, -, -, ht⟩
  exact ht.forget hf

/-- `handle->f[i] = malloc(m)`, and what `x` does then. -/
theorem At.mallocEntry (hs : At alloc handle k n s) (hp : k f = some p) (hne : p ≠ handle) {rows i : ℕ} (hi : i < rows)
    (hlive : Sized s p rows) (m : ℤ) {x : MemProc Unit} {Q : Unit → Words → Prop} {J : Words → Prop}
    (hfail : alloc n = none → ∀ t, Holds handle k t → Entry t p rows i 0 → Ends U x t Q J)
    (hnext : ∀ t q, At alloc handle k (n + 1) t → Entry t p rows i q → q ≠ 0 → q ≠ handle → q ≠ p →
      Sized t q m.toNat → Ends U x t Q J) :
    Ends U (malloc alloc m >>= fun q => assignEntry handle f i q >>= fun _ => x) s Q J := by
  obtain ⟨b, hb, hsize, hcell⟩ := hs.holds
  obtain ⟨c, hc, hrows⟩ := hlive
  have hgrow : ∀ b', Holds handle k (s.grow b') := fun b' => ⟨b, Words.block_grow_of_live hb b', hsize, hcell⟩
  have hlive' : ∀ b', Sized (s.grow b') p rows := fun b' => ⟨c, Words.block_grow_of_live hc b', hrows⟩
  refine (ends_bind _).mpr (ends_malloc alloc m (fun hnone => ?_) fun junk hsome => ?_)
  · rw [hs.calls] at hnone
    exact (ends_bind _).mpr (ends_assignEntry (hgrow none) hp hne hi (hlive' none) 0
      fun t ht _ hentry _ => hfail hnone t ht hentry)
  · have hle := Words.le_calls hb
    have hle' := Words.le_calls hc
    refine (ends_bind _).mpr (ends_assignEntry (hgrow _) hp hne hi (hlive' _) _ fun t ht hcalls hentry hframe => ?_)
    refine hnext t _ (hs.next ?_ ht (hcalls.trans ?_)) hentry (by omega) (by omega) (by omega) ?_
    · rw [← hs.calls, hsome]
      rfl
    · rw [Words.calls_grow, hs.calls]
    · refine ⟨_, (hframe _ (by omega)).trans (Words.block_grow_self s _), rfl⟩

theorem At.mallocMatrix (hs : At alloc handle k n s) (h₂ : 2 ≤ n) (hn : n + 8 < 47) (hw : k .winHanning = some w)
    (hw₀ : w ≠ 0) (hf : k f = none) (hrows : k .maxNblkTime = some 8) {cols : MemProc ℤ} {m : ℤ}
    (hcols : ∀ t, Holds handle k t → ∀ Q : ℤ → Words → Prop, Q m t → Ends U cols t Q (Broken alloc handle)) :
    Ends U (mallocMatrix alloc handle f cols) s (fun _ => At alloc handle k (n + 9)) (Broken alloc handle) := by
  rw [AudioProcess.mallocMatrix, ends_bind, hs.holds.getField hrows]
  refine (hs.mallocField h₂ (by omega) hw hw₀ hf 8).bind ?_
  rintro - t ⟨p, hne, hlive, ht⟩
  have hp : Function.update k f (some p) f = some p := Function.update_self ..
  refine (ends_forField ht.holds (known_update hf _ hrows) (fun i t => Sized t p 8 ∧
    At alloc handle (Function.update k f (some p)) (n + 1 + i) t) ⟨hlive, ht⟩ ?_).mono
    (fun _ t' ht' => ht'.2.forget hf) fun _ ht => ht
  rintro i hi t ⟨hlive, ht⟩
  have hi8 : i < 8 := hi
  refine (ends_bind _).mpr (hcols t (ht.forget hf).holds _ (ht.mallocEntry hp hne hi8 hlive m ?_ ?_))
  · intro hfail t' ht' hentry
    rw [ends_checkEntry ht' hp hi8 hentry, if_pos rfl]
    exact ht.broken (by omega) (by omega) hfail ht' (known_update hf _ hw) hw₀
  · intro t' q ht' hentry hq _ _ _
    rw [ends_checkEntry ht'.holds hp hi8 hentry, if_neg hq]
    exact ⟨ht'.holds, hentry.sized, ht'⟩

/-- A failure of a row goes unnoticed until `memset` writes to it. -/
theorem At.mallocSURE (hs : At alloc handle k n s) (h₂ : 2 ≤ n) (hn : n + 3 < 47) (hw : k .winHanning = some w)
    (hw₀ : w ≠ 0) (hf : k .sureMatrix = none) (hrows : k .nblkTime = some 3) (hcols : k .nblkFreq = some 5)
    (hU : ¬ AllSucceed alloc → (alloc 1).isSome → U) :
    Ends U (mallocSURE alloc handle) s (fun _ => At alloc handle k (n + 4)) (Broken alloc handle) := by
  rw [AudioProcess.mallocSURE, ends_bind, hs.holds.getField hrows]
  refine (hs.mallocField h₂ (by omega) hw hw₀ hf 3).bind ?_
  rintro - t ⟨p, hne, hlive, ht⟩
  have hp : Function.update k .sureMatrix (some p) .sureMatrix = some p := Function.update_self ..
  refine (ends_forField ht.holds (known_update hf _ hrows) (fun i t => Sized t p 3 ∧
    At alloc handle (Function.update k .sureMatrix (some p)) (n + 1 + i) t) ⟨hlive, ht⟩ ?_).mono
    (fun _ t' ht' => ht'.2.forget hf) fun _ ht => ht
  rintro i hi t ⟨hlive, ht⟩
  have hi3 : i < 3 := hi
  rw [ends_bind, ht.holds.getField (known_update hf _ hcols)]
  refine ht.mallocEntry hp hne hi3 hlive 5 ?_ ?_
  · intro hfail t' ht' hentry
    have hbroken := ht.broken (by omega) (by omega) hfail ht' (known_update hf _ hw) hw₀
    rw [fillEntry, ends_bind, ends_bind, ends_getEntry ht' hp hi3 hentry, fill,
      ends_update_dead (t'.live_spec 0 (.inl le_rfl))]
    exact hU hbroken.failed hbroken.window
  · intro t' q ht' hentry hq hqh hqp hlive'
    refine (ends_bind _).mpr (ends_fillEntry ht'.holds hp hi3 hentry hqh hqp hlive' fun t'' ht'' hcalls hentry' => ?_)
    rw [ends_checkEntry ht'' hp hi3 hentry', if_neg hq]
    exact ⟨ht'', hentry'.sized, ht'', hcalls.trans ht'.calls, ht'.succeeded⟩

theorem At.setField (hs : At alloc handle k n s) (f : Field) (x : ℤ) {Q : Unit → Words → Prop} {J : Words → Prop}
    (hQ : ∀ t, At alloc handle (Function.update k f (some x)) n t → Q () t) :
    Ends U (AudioProcess.setField handle f x) s Q J :=
  hs.holds.setField f x fun t ht hcalls _ => hQ t ⟨ht, hcalls.trans hs.calls, hs.succeeded⟩

theorem At.weaken {k' : Field → Option ℤ} (hs : At alloc handle k n s)
    (hk : ∀ f x, k' f = some x → k f = some x) : At alloc handle k' n s :=
  ⟨hs.holds.weaken hk, hs.calls, hs.succeeded⟩

end Steps

/-- What the handle holds of the window of `2 * half` samples at `w`. -/
def knownWindow (w half : ℤ) : Field → Option ℤ
  | .winSize => some (2 * half)
  | .halfWinSize => some half
  | .winHanning => some w
  | _ => none

/-- What the handle holds of the window and of the blocks. -/
def knownSizes (w half : ℤ) : Field → Option ℤ
  | .maxNblkTime => some 8
  | .maxNblkFreq => some 16
  | .nblkTime => some 3
  | .nblkFreq => some 5
  | .macroSize => some (8 * half)
  | f => knownWindow w half f

section Phases

variable {U : Prop} {alloc : Allocator} {handle w half : ℤ} {s : Words} {J : Words → Prop}

theorem ends_initSizeFields (hs : At alloc handle (knownWindow w half) 2 s) (h₀ : 0 ≤ half)
    (hU : intMax < 9 * half → U) : Ends U (initSizeFields handle) s
      (fun _ t => 8 * half ≤ intMax ∧ At alloc handle (knownSizes w half) 2 t) J := by
  have hmin : intMin ≤ 0 := by decide
  rw [initSizeFields]
  refine (ends_bind _).mpr (hs.setField _ _ fun t ht => ?_)
  refine (ends_bind _).mpr (ht.setField _ _ fun t ht => ?_)
  refine (ends_bind _).mpr (ht.setField _ _ fun t ht => ?_)
  refine (ends_bind _).mpr (ht.setField _ _ fun t ht => ?_)
  rw [ends_bind, ht.holds.getField (x := half) rfl, ends_bind, ht.holds.getField (x := 8) rfl, ends_bind]
  by_cases hfit : 8 * half ≤ intMax
  · rw [mul_comm, checked_of_range (by omega) hfit, ends_lift_some]
    refine (ends_bind _).mpr (ht.setField _ _ fun t ht => ht.setField _ _ fun t ht => ⟨hfit, ht.weaken ?_⟩)
    intro f x hx
    cases f <;> first | exact hx | cases hx
  · rw [mul_comm, checked_of_gt (not_le.mp hfit), ends_lift_none]
    exact hU (by omega)

theorem ends_rowSize {k : Field → Option ℤ} (hs : Holds handle k s) (hwin : k .winSize = some (2 * half))
    (h₀ : 0 ≤ half) (hmax : 8 * half ≤ intMax) {Q : ℤ → Words → Prop} (hQ : Q (half + 1) s) :
    Ends U (rowSize handle) s Q J := by
  have hmin : intMin ≤ 0 := by decide
  have hone : 1 ≤ intMax := by decide
  rw [rowSize, ends_bind, hs.getField hwin, ends_bind, div_of_pos (by omega) (by decide), ends_lift_some,
    Int.mul_ediv_cancel_left _ (by decide), checked_of_range (by omega) (by omega), ends_lift_some]
  exact hQ

theorem ends_initBlocks (hs : At alloc handle (knownSizes w half) 2 s) (hw₀ : w ≠ 0) (h₀ : 0 ≤ half)
    (hmax : 8 * half ≤ intMax) (hU : intMax < 9 * half → U) (hU' : ¬ AllSucceed alloc → (alloc 1).isSome → U) :
    Ends U (initBlocks alloc handle) s
      (fun _ t => 9 * half ≤ intMax ∧ At alloc handle (knownSizes w half) 47 t) (Broken alloc handle) := by
  have hmin : intMin ≤ 0 := by decide
  have hrow : ∀ t, Holds handle (knownSizes w half) t → ∀ Q : ℤ → Words → Prop, Q (half + 1) t →
      Ends U (rowSize handle) t Q (Broken alloc handle) := fun t ht Q hQ => ends_rowSize ht rfl h₀ hmax hQ
  have hfreq : ∀ t, Holds handle (knownSizes w half) t → ∀ Q : ℤ → Words → Prop, Q 16 t →
      Ends U (getField handle .maxNblkFreq) t Q (Broken alloc handle) := fun t ht Q hQ => (ht.getField rfl).mpr hQ
  rw [initBlocks]
  refine (hs.mallocSURE (by decide) (by decide) rfl hw₀ rfl rfl rfl hU').bind fun _ t ht => ?_
  rw [ends_bind, ht.holds.getField (x := 2 * half) rfl]
  refine (ht.mallocBuffer (by decide) (by decide) rfl hw₀ rfl _).bind fun _ t ht => ?_
  rw [ends_bind, ht.holds.getField (x := 2 * half) rfl]
  refine (ht.mallocBuffer (by decide) (by decide) rfl hw₀ rfl _).bind fun _ t ht => ?_
  rw [ends_bind, ht.holds.getField (x := 8 * half) rfl, ends_bind, ht.holds.getField (x := half) rfl, ends_bind]
  by_cases hfit : 8 * half + half ≤ intMax
  · rw [checked_of_range (by omega) hfit, ends_lift_some]
    refine (ht.mallocBuffer (by decide) (by decide) rfl hw₀ rfl _).bind fun _ t ht => ?_
    refine (ht.mallocMatrix (by decide) (by decide) rfl hw₀ rfl rfl hrow).bind fun _ t ht => ?_
    refine (ht.mallocMatrix (by decide) (by decide) rfl hw₀ rfl rfl hrow).bind fun _ t ht => ?_
    refine (ht.mallocMatrix (by decide) (by decide) rfl hw₀ rfl rfl hfreq).bind fun _ t ht => ?_
    refine (ht.mallocMatrix (by decide) (by decide) rfl hw₀ rfl rfl hfreq).bind fun _ t ht => ?_
    refine (ht.mallocCfg (by decide) (by decide) rfl hw₀ rfl rfl).bind fun _ t ht => ?_
    exact (ht.mallocCfg (by decide) (by decide) rfl hw₀ rfl rfl).mono
      (fun _ t ht => ⟨by omega, ht⟩) fun _ ht => ht
  · rw [checked_of_gt (not_le.mp hfit), ends_lift_none]
    exact hU (by omega)

/-- The pointers that `blockThreshold_init` assigns after the window. -/
def laterPointers : List Field :=
  [.sureMatrix, .inbuf, .inbufWin, .outbuf, .stftCoef, .stftThre, .stftCoefBlock, .stftCoefBlockNorm,
    .forwardFftrCfg, .backwardFftrCfg]

/-- The window could not be allocated: the handle is the only block, and its later pointers hold what they held. -/
def WindowFailed (handle : ℤ) (k : Field → Option ℤ) (s : Words) : Prop :=
  (∀ p ≠ handle, s.block p = none) ∧ ∃ k', Holds handle k' s ∧ k' .winHanning = some 0 ∧
    ∀ f ∈ laterPointers, k' f = k f

theorem ends_initWindow {k : Field → Option ℤ} {timeWin fs : ℤ} (ht : 0 < timeWin) (hfs : 0 < fs)
    (hs : Holds handle k s) (hcalls : s.calls = 1) (hone : ∀ p ≠ handle, s.block p = none) (h₀ : (alloc 0).isSome)
    (hhalf : half = (fs / 1000 * timeWin + 1) / 2) (hU : intMax < 2 * half → U)
    (hJ : ∀ t, alloc 1 = none → 2 * half ≤ intMax → WindowFailed handle k t → J t) :
    Ends U (initWindow alloc handle timeWin fs) s
      (fun _ t => 2 * half ≤ intMax ∧ ∃ w ≠ 0, At alloc handle (knownWindow w half) 2 t) J := by
  have hmin : intMin ≤ 0 := by decide
  have hw : 0 ≤ fs / 1000 * timeWin := Int.mul_nonneg (Int.ediv_nonneg hfs.le (by decide)) ht.le
  rw [initWindow]
  refine (ends_bind _).mpr (hs.setField _ _ fun t₁ ht₁ hcalls₁ hframe₁ => ?_)
  rw [div_of_pos hfs.le (by decide), ends_bind, ends_lift_some, ends_bind]
  generalize fs / 1000 * timeWin = samples at hw hhalf ⊢
  by_cases hlarge : intMax < samples
  · rw [checked_of_gt hlarge, ends_lift_none]
    exact hU (by omega)
  rw [checked_of_range (by omega) (by omega), ends_lift_some]
  refine (ends_bind _).mpr (ht₁.setField _ _ fun t₂ ht₂ hcalls₂ hframe₂ => ?_)
  rw [ends_bind, ht₂.getField (Function.update_self ..), ends_bind, evenSize_eq hw (by omega), ← hhalf]
  by_cases hround : intMax < 2 * half
  · rw [checked_of_gt hround, ends_lift_none]
    exact hU hround
  rw [checked_of_range (by omega) (by omega), ends_lift_some]
  refine (ends_bind _).mpr (ht₂.setField _ _ fun t₃ ht₃ hcalls₃ hframe₃ => ?_)
  rw [ends_bind, ht₃.getField (Function.update_self ..), ends_bind, div_of_pos (by omega) (by decide),
    ends_lift_some, Int.mul_ediv_cancel_left _ (by decide)]
  refine (ends_bind _).mpr (ht₃.setField _ _ fun t₄ ht₄ hcalls₄ hframe₄ => ?_)
  rw [ends_bind, ht₄.getField (x := 2 * half) rfl]
  have hcalls₁₄ : t₄.calls = 1 := by omega
  have hframe₁₄ : ∀ p ≠ handle, t₄.block p = none := by
    intro p hp
    rw [hframe₄ p hp, hframe₃ p hp, hframe₂ p hp, hframe₁ p hp, hone p hp]
  refine (ends_bind _).mpr (ends_mallocField ht₄ _ _ (fun hfail t ht hframe => ?_)
    fun hsome t p ht hcalls hlive hpos hne => ?_)
  · rw [hcalls₁₄] at hfail
    refine hJ t hfail (not_lt.mp hround) ⟨fun p hp => ?_, _, ht, Function.update_self .., fun f hf => ?_⟩
    · rw [hframe p hp, Words.block_grow_none, hframe₁₄ p hp]
    · simp only [laterPointers, List.mem_cons, List.not_mem_nil, or_false] at hf
      rcases hf with rfl | rfl | rfl | rfl | rfl | rfl | rfl | rfl | rfl | rfl <;> rfl
  · rw [hcalls₁₄] at hsome hcalls
    refine ends_fillField ht (Function.update_self ..) hne hlive fun t' ht' hcalls' =>
      ⟨not_lt.mp hround, p, hpos.ne', ?_⟩
    refine ⟨ht'.weaken fun f x hx => ?_, hcalls'.trans hcalls, fun i hi => ?_⟩
    · cases f <;> first | exact hx | cases hx
    · rcases Nat.lt_succ_iff_lt_or_eq.mp hi with hlt | rfl
      · obtain rfl := Nat.lt_one_iff.mp hlt
        exact h₀
      · exact hsome

end Phases

end AudioProcess
