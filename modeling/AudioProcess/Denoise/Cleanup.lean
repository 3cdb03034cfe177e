import AudioProcess.Denoise.AllocSteps

/-!
# Failing allocations in `blockThreshold_init`

* `CleansUp`: a call leaves no block behind, and nothing dangling; `Recoverable`: nor does it with a caller that frees
  the handle;
* `freeMem_defined_iff`: when `blockThreshold_free` can free a handle that points to nothing;
* `Broken.not_recoverable`, `WindowFailed.recoverable_iff`: the cleanup after either kind of failure;
* **`cleanup_iff`**.
-/

namespace AudioProcess

open CInt Proc

/-- The run of `blockThreshold_init` from an empty heap. -/
def initRun (alloc : Allocator) (timeWin fs : ℤ) : Ran Words (PtrEvent Var) (Mars × ℤ) :=
  blockThresholdInitMem alloc timeWin fs Words.empty

/-- Pointers are assigned and checked before they are used; nothing but live blocks is used or freed; and with
`MARS_ERROR_MEMORY` no block is left, nor a handle that `blockThreshold_free` would trip over. -/
structure CleansUp (r : Ran Words (PtrEvent Var) (Mars × ℤ)) : Prop where
  guarded : Guarded r.log
  defined : r.exit ≠ .undefined
  released : ∀ p, r.exit = .next (.errorMemory, p) →
    (∀ q, r.state.block q = none) ∧ (p = 0 ∨ (blockThresholdFreeMem p r.state).exit ≠ .undefined)

/-- The same for a caller that frees the handle: nothing but live blocks is used or freed, and with
`MARS_ERROR_MEMORY` the handle is the only block left, and `blockThreshold_free` can free it. -/
structure Recoverable (r : Ran Words (PtrEvent Var) (Mars × ℤ)) : Prop where
  defined : r.exit ≠ .undefined
  released : ∀ p, r.exit = .next (.errorMemory, p) →
    (∀ q ≠ p, r.state.block q = none) ∧ (blockThresholdFreeMem p r.state).exit ≠ .undefined

/-! ## What freeing does -/

section Free

variable {handle : ℤ} {s : Words} {f bound : Field} {J : Words → Prop}

theorem keeps_getField (handle : ℤ) (f : Field) : Keeps Shrinks (getField handle f) := keeps_read _ _ _

theorem keeps_freeField (handle : ℤ) (f : Field) : Keeps Shrinks (freeField handle f) :=
  (keeps_getField handle f).bind fun p => keeps_safeFree _ p

theorem keeps_freeEntry (handle : ℤ) (f : Field) (i : ℕ) : Keeps Shrinks (freeEntry handle f i) :=
  ((keeps_getField handle f).bind fun p => keeps_read _ p i).bind fun q => keeps_safeFree _ q

theorem keeps_freeMatrix (handle : ℤ) (f bound : Field) (array : Bool) :
    Keeps Shrinks (freeMatrix handle f bound array) := by
  refine (keeps_getField handle f).bind fun p => (keeps_emit _).bind fun _ => ?_
  have hrows : Keeps Shrinks (forField handle bound (freeEntry handle f)) :=
    (keeps_getField handle bound).bind fun n => Keeps.loop (fun i => (keeps_freeEntry handle f i).bind fun _ =>
      (keeps_getField handle bound).bind fun _ => Keeps.pure ()) _
  split_ifs
  · exact hrows.bind fun _ => keeps_freeField handle f
  · exact hrows.bind fun _ => Keeps.pure ()
  · exact Keeps.pure ()

theorem keeps_freeLater (array : Bool) (handle : ℤ) : Keeps Shrinks (freeLater array handle) :=
  (keeps_freeMatrix _ _ _ _).bind fun _ => (keeps_freeField _ _).bind fun _ =>
    (keeps_freeField _ _).bind fun _ => (keeps_freeField _ _).bind fun _ => (keeps_freeMatrix _ _ _ _).bind fun _ =>
    (keeps_freeMatrix _ _ _ _).bind fun _ => (keeps_freeMatrix _ _ _ _).bind fun _ =>
    (keeps_freeMatrix _ _ _ _).bind fun _ => (keeps_freeField _ _).bind fun _ => keeps_freeField _ _

theorem keeps_freeFields (array : Bool) (handle : ℤ) : Keeps Shrinks (freeFields array handle) :=
  (keeps_freeField _ _).bind fun _ => keeps_freeLater array handle

/-- What a field points to is not live any more. -/
theorem ends_freeField_dead {b : WordBlock} (hb : s.block handle = some b) (hf : b.cell f.offset ≠ 0) :
    Ends True (freeField handle f) s (fun _ t => t.block (b.cell f.offset) = none) J := by
  refine (ends_bind _).mpr (ends_read_true fun b' hb' _ => ?_)
  obtain rfl := Option.some.inj (hb.symm.trans hb')
  exact ends_safeFree_true (fun h => absurd h hf) fun hp => Words.block_put_self s hp none

theorem ends_freeField_null {U : Prop} {k : Field → Option ℤ} (hs : Holds handle k s) (hf : k f = some 0)
    {Q : Unit → Words → Prop} : Ends U (freeField handle f) s Q J ↔ Q () s := by
  rw [freeField, ends_bind, hs.getField hf, safeFree, ends_bind, ends_emit, if_neg (not_not.mpr rfl), ends_pure]

theorem ends_freeMatrix_null {U : Prop} {k : Field → Option ℤ} (hs : Holds handle k s) (hf : k f = some 0)
    (array : Bool) {Q : Unit → Words → Prop} : Ends U (freeMatrix handle f bound array) s Q J ↔ Q () s := by
  rw [freeMatrix, ends_bind, hs.getField hf, ends_bind, ends_emit, if_neg (not_not.mpr rfl), ends_pure]

/-- Nothing to free. -/
theorem ends_freeFields_null {U : Prop} {k : Field → Option ℤ} (hs : Holds handle k s)
    (hk : ∀ f ∈ Field.winHanning :: laterPointers, k f = some 0) (array : Bool) {Q : Unit → Words → Prop} :
    Ends U (freeFields array handle) s Q J ↔ Q () s := by
  simp only [laterPointers, List.forall_mem_cons] at hk
  obtain ⟨h₀, h₁, h₂, h₃, h₄, h₅, h₆, h₇, h₈, h₉, h₁₀, -⟩ := hk
  rw [freeFields, ends_bind, ends_freeField_null hs h₀, freeLater, ends_bind, ends_freeMatrix_null hs h₁, ends_bind,
    ends_freeField_null hs h₂, ends_bind, ends_freeField_null hs h₄, ends_bind, ends_freeField_null hs h₃, ends_bind,
    ends_freeMatrix_null hs h₅, ends_bind, ends_freeMatrix_null hs h₆, ends_bind, ends_freeMatrix_null hs h₇,
    ends_bind, ends_freeMatrix_null hs h₈, ends_bind, ends_freeField_null hs h₉, ends_freeField_null hs h₁₀]

end Free

/-! ## After the window's allocation failed -/

section Window

variable {handle : ℤ} {b : WordBlock} {fs : List Field} {f bound : Field} {s : Words} {J : Words → Prop}

/-- The handle is the only block, and holds `b`. -/
def Alone (handle : ℤ) (b : WordBlock) (s : Words) : Prop :=
  s.block handle = some b ∧ ∀ p ≠ handle, s.block p = none

/-- The handle was freed, or else the pointers `fs` are null. -/
def FreedOrNull (handle : ℤ) (b : WordBlock) (fs : List Field) (s : Words) : Prop :=
  s.block handle = none ∨ Alone handle b s ∧ ∀ f ∈ fs, b.cell f.offset = 0

/-- What can be freed is the handle. -/
theorem ends_safeFree_alone (hs : Alone handle b s) (v : Var) (p : ℤ) :
    Ends True (safeFree v p) s (fun _ t => t.block handle = none ∨ Alone handle b t ∧ p = 0) J := by
  refine ends_safeFree_true (fun hp => .inr ⟨hs, hp⟩) fun hp => .inl ?_
  have heq : p = handle := by
    by_contra hne
    rw [hs.2 p hne] at hp
    cases hp
  subst heq
  exact Words.block_put_self s hp none

theorem FreedOrNull.freeField (hs : FreedOrNull handle b fs s) :
    Ends True (freeField handle f) s (fun _ => FreedOrNull handle b (f :: fs)) J := by
  refine (ends_bind _).mpr (ends_read_true fun b' hb' _ => ?_)
  rcases hs with hdead | ⟨halone, hnull⟩
  · rw [hdead] at hb'
    cases hb'
  · obtain rfl := Option.some.inj (halone.1.symm.trans hb')
    refine (ends_safeFree_alone halone _ _).mono (fun _ t ht => ?_) fun _ ht => ht
    exact ht.imp_right fun h => ⟨h.1, List.forall_mem_cons.mpr ⟨h.2, hnull⟩⟩

theorem FreedOrNull.freeEntry (hs : FreedOrNull handle b fs s) (i : ℕ) :
    Ends True (freeEntry handle f i) s (fun _ => FreedOrNull handle b fs) J := by
  refine (ends_bind _).mpr ((ends_bind _).mpr (ends_read_true fun b' hb' _ => ends_read_true fun c _ _ => ?_))
  rcases hs with hdead | ⟨halone, hnull⟩
  · rw [hdead] at hb'
    cases hb'
  · exact (ends_safeFree_alone halone _ _).mono (fun _ t ht => ht.imp_right fun h => ⟨h.1, hnull⟩) fun _ ht => ht

theorem FreedOrNull.freeMatrix (hs : FreedOrNull handle b fs s) :
    Ends True (freeMatrix handle f bound true) s (fun _ => FreedOrNull handle b (f :: fs)) J := by
  refine (ends_bind _).mpr (ends_read_true fun b' hb' _ => ?_)
  rw [ends_bind, ends_emit]
  by_cases hp : b'.cell f.offset ≠ 0
  · rw [if_pos hp, if_pos rfl]
    refine Ends.bind (Q := fun _ => FreedOrNull handle b fs) ?_ fun _ t ht => ht.freeField
    refine (ends_bind _).mpr (ends_read_true fun _ _ _ => ends_loop (fun _ => FreedOrNull handle b fs) hs
      fun i _ t ht => (ht.freeEntry i).bind fun _ t' ht' => ?_)
    exact (ends_bind _).mpr (ends_read_true fun _ _ _ => ht')
  · rw [if_neg hp, ends_pure]
    rcases hs with hdead | ⟨halone, hnull⟩
    · exact .inl hdead
    · obtain rfl := Option.some.inj (halone.1.symm.trans hb')
      exact .inr ⟨halone, List.forall_mem_cons.mpr ⟨not_not.mp hp, hnull⟩⟩

/-- `blockThreshold_free` can free the handle alone exactly when its pointers are null. -/
theorem freeMem_defined_iff (hs : Alone handle b s) (hsize : b.size = Field.count) :
    (blockThresholdFreeMem handle s).exit ≠ .undefined ↔
      ∀ f ∈ Field.winHanning :: laterPointers, b.cell f.offset = 0 := by
  constructor
  · intro hdef
    have hstart : FreedOrNull handle b [] s := .inr ⟨hs, List.forall_mem_nil _⟩
    have hfields : Ends True (freeFields true handle) s (fun _ => FreedOrNull handle b [.backwardFftrCfg,
        .forwardFftrCfg, .stftCoefBlockNorm, .stftCoefBlock, .stftThre, .stftCoef, .inbufWin, .outbuf, .inbuf,
        .sureMatrix, .winHanning]) fun _ => False :=
      hstart.freeField.bind fun _ _ h => h.freeMatrix.bind fun _ _ h => h.freeField.bind fun _ _ h =>
        h.freeField.bind fun _ _ h => h.freeField.bind fun _ _ h => h.freeMatrix.bind fun _ _ h =>
        h.freeMatrix.bind fun _ _ h => h.freeMatrix.bind fun _ _ h => h.freeMatrix.bind fun _ _ h =>
        h.freeField.bind fun _ _ h => h.freeField
    by_contra hnot
    refine hdef (Ends.undefined (hfields.bind fun _ t ht => ?_))
    rcases ht with hdead | ⟨-, hnull⟩
    · refine ends_safeFree_true (fun hp => absurd hp (Words.le_calls hs.1).1.ne') fun hp => ?_
      rw [hdead] at hp
      cases hp
    · refine absurd (fun f hf => hnull f ?_) hnot
      simp only [laterPointers, List.mem_cons, List.not_mem_nil, or_false] at hf ⊢
      tauto
  · intro hnull
    have hholds : Holds handle (fun f => some (b.cell f.offset)) s := ⟨b, hs.1, hsize, fun _ _ => Option.some.inj⟩
    have hlive : (s.block handle).isSome := hs.1 ▸ rfl
    refine Ends.defined (Q := fun _ _ => True) (J := fun _ => True) ?_
    rw [blockThresholdFreeMem, ends_bind,
      ends_freeFields_null hholds fun f hf => congrArg some (hnull f hf), safeFree, ends_bind, ends_emit,
      if_pos (Words.le_calls hs.1).1.ne', ends_free hlive]
    trivial

end Window

/-! ## After the cleanup -/

/-- What `blockThreshold_init` does behind `end:`. -/
def cleanup (handle : ℤ) : MemProc (Mars × ℤ) := do
  freeFields false handle
  pure (.errorMemory, handle)

section Cleanup

variable {alloc : Allocator} {handle : ℤ} {s : Words} {r r' : Ran Words (PtrEvent Var) (Mars × ℤ)}

theorem Recoverable.congr (h : Recoverable r) (hexit : r'.exit = r.exit) (hstate : r'.state = r.state) :
    Recoverable r' where
  defined := hexit ▸ h.defined
  released p hp := by
    rw [hexit] at hp
    rw [hstate]
    exact h.released p hp

theorem recoverable_congr (hexit : r.exit = r'.exit) (hstate : r.state = r'.state) : Recoverable r ↔ Recoverable r' :=
  ⟨fun h => h.congr hexit.symm hstate.symm, fun h => h.congr hexit hstate⟩

/-- A body and the code at its label, from what the body's ends say. -/
theorem recoverable_label {x y : MemProc (Mars × ℤ)} {U P : Prop} (hU : U → ¬ P)
    (h : Ends U x s (fun a _ => a.1 = .ok ∧ P) fun t => Recoverable (y t) ↔ P) :
    Recoverable (label x y s) ↔ P := by
  unfold Ends at h
  cases hexit : (x s).exit with
  | next a =>
      rw [hexit] at h
      have hlabel : label x y s = x s := label_of_ne_jump y (by rw [hexit]; nofun)
      rw [hlabel]
      refine iff_of_true ⟨by rw [hexit]; nofun, fun p hp => ?_⟩ h.2
      have hok : a.1 = .errorMemory := congrArg Prod.fst (Exit.next.inj (hexit.symm.trans hp))
      exact Mars.noConfusion (h.1.symm.trans hok)
  | jump =>
      rw [hexit] at h
      obtain ⟨hlexit, hlstate⟩ := label_of_jump y hexit
      exact (recoverable_congr hlexit hlstate).trans h
  | undefined =>
      rw [hexit] at h
      have hlabel : label x y s = x s := label_of_ne_jump y (by rw [hexit]; nofun)
      rw [hlabel]
      exact iff_of_false (fun hr => hr.defined hexit) (hU h)

theorem keeps_cleanup (handle : ℤ) : Keeps Shrinks (cleanup handle) :=
  (keeps_freeFields false handle).bind fun _ => Keeps.pure _

/-- Where the cleanup is defined, it returns `MARS_ERROR_MEMORY`, and only frees blocks. -/
theorem cleanup_exit (hdef : (cleanup handle s).exit ≠ .undefined) :
    (cleanup handle s).exit = .next (.errorMemory, handle) ∧ Shrinks s (cleanup handle s).state := by
  obtain ⟨a, ha, hshrinks⟩ := (keeps_cleanup handle).exists_next hdef
  have hends : Ends True (cleanup handle) s (fun a _ => a = (.errorMemory, handle)) fun _ => False :=
    (keeps_freeFields false handle s).bind fun _ _ _ => rfl
  exact ⟨hends.next ha ▸ ha, hshrinks⟩

/-- The window is freed, and the handle still points to it. -/
theorem Broken.not_recoverable (hs : Broken alloc handle s) : ¬ Recoverable (cleanup handle s) := by
  obtain ⟨b, hb, hwin⟩ := hs.handle
  intro hr
  obtain ⟨hexit, hshrinks⟩ := cleanup_exit hr.defined
  have hends : Ends True (cleanup handle) s (fun _ t => t.block (b.cell Field.winHanning.offset) = none)
      fun _ => False := by
    refine Ends.bind (Ends.bind (ends_freeField_dead hb hwin) fun _ t ht => ?_) fun _ _ ht => ht
    refine (keeps_freeLater false handle t).mono (fun _ t' hshrinks' => ?_) fun _ h => h
    rw [ends_pure]
    rcases hshrinks' (b.cell Field.winHanning.offset) with hsame | hfreed
    · rw [hsame, ht]
    · exact hfreed
  have hdead := hends.next hexit
  refine (hr.released handle hexit).2 (Ends.undefined ?_)
  refine (ends_bind _).mpr ((ends_bind _).mpr ((ends_bind _).mpr (ends_read_true fun b' hb' _ => ?_)))
  rcases hshrinks handle with hsame | hfreed
  · obtain rfl := Option.some.inj (hb'.symm.trans (hsame.trans hb))
    refine ends_safeFree_true (fun hp => absurd hp hwin) fun hp => ?_
    rw [hdead] at hp
    cases hp
  · rw [hfreed] at hb'
    cases hb'

/-- Without the window: the cleanup is harmless exactly when the later pointers happen to be null. -/
theorem WindowFailed.recoverable_iff {k : Field → Option ℤ} {junk : ℕ → ℤ}
    (hk : ∀ f ∈ laterPointers, k f = some (junk f.offset)) (hs : WindowFailed handle k s) :
    Recoverable (cleanup handle s) ↔ ∀ f ∈ laterPointers, junk f.offset = 0 := by
  obtain ⟨hone, k', hholds, hwin, hlater⟩ := hs
  obtain ⟨b, hb, hsize, hcell⟩ := id hholds
  have hjunk : ∀ f ∈ laterPointers, b.cell f.offset = junk f.offset := fun f hf =>
    hcell f _ ((hlater f hf).trans (hk f hf))
  have hnull : (∀ f ∈ Field.winHanning :: laterPointers, b.cell f.offset = 0) ↔
      ∀ f ∈ laterPointers, junk f.offset = 0 := by
    rw [List.forall_mem_cons, and_iff_right (hcell _ _ hwin)]
    exact forall₂_congr fun f hf => by rw [hjunk f hf]
  rw [← hnull]
  constructor
  · intro hr
    obtain ⟨hexit, hshrinks⟩ := cleanup_exit hr.defined
    obtain ⟨hnone, hfree⟩ := hr.released handle hexit
    rcases hshrinks handle with hsame | hfreed
    · exact (freeMem_defined_iff ⟨hsame.trans hb, hnone⟩ hsize).mp hfree
    · refine absurd (Ends.undefined ?_) hfree
      exact (ends_bind _).mpr ((ends_bind _).mpr ((ends_bind _).mpr ((ends_read_dead hfreed).mpr trivial)))
  · intro hzero
    have hk' : Holds handle (fun f => some (b.cell f.offset)) s := ⟨b, hb, hsize, fun _ _ => Option.some.inj⟩
    have hends : Ends False (cleanup handle) s (fun a t => a = (.errorMemory, handle) ∧ t = s) fun _ => False := by
      rw [cleanup, ends_bind, ends_freeFields_null hk' fun f hf => congrArg some (hzero f hf)]
      exact ⟨rfl, rfl⟩
    have hstate := (hends.next (cleanup_exit hends.defined).1).2
    refine ⟨hends.defined, fun p hp => ?_⟩
    rw [(cleanup_exit hends.defined).1] at hp
    obtain rfl : handle = p := congrArg Prod.snd (Exit.next.inj hp)
    rw [hstate]
    exact ⟨hone, (freeMem_defined_iff ⟨hb, hone⟩ hsize).mpr hzero⟩

end Cleanup

/-! ## The whole call -/

/-- What `blockThreshold_init` does before `end:`. -/
def initBody (alloc : Allocator) (timeWin fs handle : ℤ) : MemProc (Mars × ℤ) := do
  initWindow alloc handle timeWin fs
  initSizeFields handle
  initBlocks alloc handle
  pure (.ok, handle)

section Init

variable {alloc : Allocator} {timeWin fs : ℤ}

theorem initRun_of_some {junk : ℕ → ℤ} (ht : 0 < timeWin) (hfs : 0 < fs) (h₀ : alloc 0 = some junk) :
    let run := label (initBody alloc timeWin fs 1) (cleanup 1) (Words.empty.grow (some ⟨Field.count, junk⟩))
    initRun alloc timeWin fs = ⟨run.exit, run.state, .assigned .handle :: run.log⟩ := by
  have hok : ¬ (timeWin ≤ 0 ∨ fs ≤ 0) := by omega
  have hmalloc : (malloc alloc Field.count : MemProc ℤ) Words.empty =
      ⟨.next 1, Words.empty.grow (some ⟨Field.count, junk⟩), []⟩ := by
    unfold malloc
    rw [show alloc Words.empty.calls = some junk from h₀]
    rfl
  unfold initRun blockThresholdInitMem
  rw [if_neg hok, bind_of_next hmalloc]
  rfl

theorem initRun_of_none (ht : 0 < timeWin) (hfs : 0 < fs) (h₀ : alloc 0 = none) :
    initRun alloc timeWin fs = ⟨.undefined, Words.empty.grow none, [.assigned .handle, .used .handle]⟩ := by
  have hok : ¬ (timeWin ≤ 0 ∨ fs ≤ 0) := by omega
  have hmalloc : (malloc alloc Field.count : MemProc ℤ) Words.empty = ⟨.next 0, Words.empty.grow none, []⟩ := by
    unfold malloc
    rw [show alloc Words.empty.calls = none from h₀]
  have hset : setField 0 .fs fs (Words.empty.grow none) = ⟨.undefined, Words.empty.grow none, [.used .handle]⟩ := rfl
  have hbody : initBody alloc timeWin fs 0 (Words.empty.grow none) =
      ⟨.undefined, Words.empty.grow none, [.used .handle]⟩ := bind_of_undefined (bind_of_undefined hset _) _
  have hlabel : label (initBody alloc timeWin fs 0) (cleanup 0) (Words.empty.grow none) =
      ⟨.undefined, Words.empty.grow none, [.used .handle]⟩ := by
    rw [label_of_ne_jump _ (hbody ▸ by simp only [ne_eq, reduceCtorEq, not_false_eq_true]), hbody]
  have hemit : (emit (.assigned .handle) : MemProc Unit) (Words.empty.grow none) =
      ⟨.next (), Words.empty.grow none, [.assigned .handle]⟩ := rfl
  have hrest := bind_of_next hemit fun _ => label (initBody alloc timeWin fs 0) (cleanup 0)
  rw [hlabel] at hrest
  unfold initRun blockThresholdInitMem
  rw [if_neg hok, bind_of_next hmalloc]
  exact congrArg (fun r : Ran Words (PtrEvent Var) (Mars × ℤ) => Ran.mk r.exit r.state ([] ++ r.log)) hrest

/-- The first thing that `blockThreshold_init` does with the handle is to use it. -/
theorem initRun_log (ht : 0 < timeWin) (hfs : 0 < fs) :
    [.assigned .handle, .used .handle] <+: (initRun alloc timeWin fs).log := by
  cases h₀ : alloc 0 with
  | none =>
      rw [initRun_of_none ht hfs h₀]
  | some junk =>
      rw [initRun_of_some ht hfs h₀]
      have hset : [PtrEvent.used Var.handle] <+:
          (setField 1 .fs fs (Words.empty.grow (some ⟨Field.count, junk⟩))).log := by
        unfold setField write update
        split_ifs <;> exact List.prefix_refl _
      have hbody := (hset.trans (log_prefix_bind _ _ _)).trans
        (log_prefix_bind (initWindow alloc 1 timeWin fs) (fun _ => initSizeFields 1 >>= fun _ =>
          initBlocks alloc 1 >>= fun _ => pure (Mars.ok, (1 : ℤ))) _)
      exact List.cons_prefix_cons.mpr ⟨rfl, hbody.trans (log_prefix_label (initBody alloc timeWin fs 1) (cleanup 1) _)⟩

theorem ends_initBody {handle half : ℤ} {k : Field → Option ℤ} {s : Words} (ht : 0 < timeWin) (hfs : 0 < fs)
    (hs : Holds handle k s) (hcalls : s.calls = 1) (hone : ∀ p ≠ handle, s.block p = none) (h₀ : (alloc 0).isSome)
    (hhalf : half = (fs / 1000 * timeWin + 1) / 2) :
    Ends (¬ (AllSucceed alloc ∧ 9 * half ≤ intMax) ∧ ¬ (alloc 1 = none ∧ 2 * half ≤ intMax))
      (initBody alloc timeWin fs handle) s
      (fun a _ => a = (.ok, handle) ∧ AllSucceed alloc ∧ 9 * half ≤ intMax) fun t =>
        Broken alloc handle t ∨ alloc 1 = none ∧ 2 * half ≤ intMax ∧ WindowFailed handle k t := by
  have hnonneg : 0 ≤ half := by
    have hw : 0 ≤ fs / 1000 * timeWin := Int.mul_nonneg (Int.ediv_nonneg hfs.le (by decide)) ht.le
    omega
  refine (ends_initWindow ht hfs hs hcalls hone h₀ hhalf (fun hlarge => ⟨by omega, by omega⟩)
    fun t h₁ hfit hfailed => .inr ⟨h₁, hfit, hfailed⟩).bind ?_
  rintro - t ⟨hround, w, hw₀, ht⟩
  have hwindow : alloc 1 ≠ none := Option.isSome_iff_ne_none.mp (ht.succeeded 1 (by decide))
  have hlarge : intMax < 9 * half → ¬ (AllSucceed alloc ∧ 9 * half ≤ intMax) ∧
      ¬ (alloc 1 = none ∧ 2 * half ≤ intMax) := fun h => ⟨by omega, fun hnone => hwindow hnone.1⟩
  refine (ends_initSizeFields ht hnonneg hlarge).bind ?_
  rintro - t ⟨hfit, ht⟩
  refine Ends.bind ((ends_initBlocks ht hw₀ hnonneg hfit hlarge fun hnot _ => ⟨fun h => hnot h.1,
    fun hnone => hwindow hnone.1⟩).mono (fun _ _ h => h) fun _ h => .inl h) ?_
  rintro - t ⟨hfit', ht⟩
  exact ⟨rfl, ht.succeeded, hfit'⟩

/-- All allocations succeed, and the sizes are defined; or the window's is the first to fail, its size is defined,
and the pointers in the new handle, which holds `junk`, are null. -/
def InitSafe (alloc : Allocator) (half : ℤ) : Prop :=
  ∃ junk, alloc 0 = some junk ∧ (AllSucceed alloc ∧ 9 * half ≤ intMax ∨
    alloc 1 = none ∧ 2 * half ≤ intMax ∧ ∀ f ∈ laterPointers, junk f.offset = 0)

theorem recoverable_iff (ht : 0 < timeWin) (hfs : 0 < fs) :
    Recoverable (initRun alloc timeWin fs) ↔ InitSafe alloc ((fs / 1000 * timeWin + 1) / 2) := by
  generalize hhalf : (fs / 1000 * timeWin + 1) / 2 = half
  cases h₀ : alloc 0 with
  | none =>
      rw [initRun_of_none ht hfs h₀]
      refine iff_of_false (fun h => h.defined rfl) ?_
      rintro ⟨junk, hjunk, -⟩
      rw [h₀] at hjunk
      cases hjunk
  | some junk =>
      have hsafe : InitSafe alloc half ↔ AllSucceed alloc ∧ 9 * half ≤ intMax ∨
          alloc 1 = none ∧ 2 * half ≤ intMax ∧ ∀ f ∈ laterPointers, junk f.offset = 0 := by
        unfold InitSafe
        rw [h₀]
        exact ⟨fun ⟨_, hjunk, h⟩ => Option.some.inj hjunk ▸ h, fun h => ⟨junk, rfl, h⟩⟩
      rw [hsafe, initRun_of_some ht hfs h₀]
      set s := Words.empty.grow (some ⟨Field.count, junk⟩) with hs
      have hholds : Holds 1 (fun f => some (junk f.offset)) s :=
        ⟨⟨Field.count, junk⟩, Words.block_grow_self _ _, rfl, fun _ _ => Option.some.inj⟩
      have hone : ∀ p ≠ 1, s.block p = none := fun p hp => Function.update_of_ne hp ..
      have hsome : (alloc 0).isSome := h₀ ▸ rfl
      have hbody := ends_initBody ht hfs hholds rfl hone hsome hhalf.symm
      refine Iff.trans (b := Recoverable (label (initBody alloc timeWin fs 1) (cleanup 1) s))
        (recoverable_congr rfl rfl) (recoverable_label ?_ (hbody.mono ?_ ?_))
      · rintro ⟨hnot, hnone⟩ (hall | ⟨h₁, hfit, -⟩)
        · exact hnot hall
        · exact hnone ⟨h₁, hfit⟩
      · rintro a - ⟨rfl, hall⟩
        exact ⟨rfl, .inl hall⟩
      · rintro t (hbroken | ⟨h₁, hfit, hwindow⟩)
        · refine iff_of_false hbroken.not_recoverable ?_
          rintro (⟨hall, -⟩ | ⟨h₁, -⟩)
          · exact hbroken.failed hall
          · exact Option.isSome_iff_ne_none.mp hbroken.window h₁
        · have hnot : ¬ AllSucceed alloc := fun hall => Option.isSome_iff_ne_none.mp (hall 1 (by decide)) h₁
          rw [hwindow.recoverable_iff fun f _ => rfl]
          simp only [hnot, false_and, false_or, h₁, hfit, true_and]

/-- **`blockThreshold_init` never cleans up as it should**: it uses the handle without a check, on every call. Apart
from that, and if the caller frees the handle, it is right when no allocation fails, and when only the handle could
be allocated and the pointers in it happen to be null. -/
theorem cleanup_iff (alloc : Allocator) (ht : 0 < timeWin) (hfs : 0 < fs) :
    ¬ CleansUp (initRun alloc timeWin fs) ∧
      (Recoverable (initRun alloc timeWin fs) ↔ InitSafe alloc ((fs / 1000 * timeWin + 1) / 2)) := by
  refine ⟨fun h => ?_, recoverable_iff ht hfs⟩
  have hused := h.guarded [.assigned .handle] .handle (initRun_log ht hfs)
  exact absurd hused.length_le (by decide)

/-- An allocator whose blocks hold zeros, and whose call `i` fails. -/
def failAt (i : ℕ) : Allocator := fun j => if j = i then none else some fun _ => 0

theorem cleanup_iff_speech : ¬ CleansUp (initRun (failAt 2) 20 16000) ∧
    (Recoverable (initRun (failAt 2) 20 16000) ↔ InitSafe (failAt 2) ((16000 / 1000 * 20 + 1) / 2)) :=
  cleanup_iff (failAt 2) (by decide) (by decide)

/-- Without `SURE_matrix`: the window is freed, `MARS_ERROR_MEMORY` comes with a handle that still points to it, and
`blockThreshold_free` frees it again. -/
theorem not_cleansUp_sure : ¬ ∀ (alloc : Allocator) (timeWin fs : ℤ), 0 < timeWin → timeWin ≤ intMax → 0 < fs →
    fs ≤ intMax → CleansUp (initRun alloc timeWin fs) := by
  intro h
  have hclean := h (failAt 2) 20 16000 (by decide) (by decide) (by decide) (by decide)
  have hexit : (initRun (failAt 2) 20 16000).exit = .next (.errorMemory, 1) := by decide
  have hagain : (blockThresholdFreeMem 1 (initRun (failAt 2) 20 16000).state).exit = .undefined := by decide
  rcases (hclean.released 1 hexit).2 with hnull | hfree
  · exact absurd hnull (by decide)
  · exact hfree hagain

end Init

end AudioProcess
