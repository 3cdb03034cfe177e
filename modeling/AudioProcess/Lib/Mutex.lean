import AudioProcess.Lib.Run

/-!
# Calls under a mutex

Any number of threads call code that holds one mutex. Inside, the code reads and writes the shared memory one
access at a time, and the other threads may run between any two of them.

* `Code`: such a piece of code, a monad; `Code.run`: the code without interruption, with a rule for each construct;
* `System`, `turn`: a turn of one thread: it takes the mutex, does one access, or gives the mutex back;
* `sequential`: the calls one after another, each at once;
* `Linear`: the invariant; **`linear_turn`**: each turn keeps it;
* **`linearizable`**: whatever the schedule, the answers are those of the calls one after another, in the order in
  which they took the mutex; **`exists_made`**: every thread can always still make all its calls.
-/

namespace Mutex

open Runs

universe u v

/-! ## Code -/

/-- Code on a memory `σ` with result `ρ`: it is done, or it does one access and goes on, knowing what it has read. -/
inductive Code (σ : Type u) (ρ : Type v) : Type max u v
  | done (r : ρ)
  | access (write : σ → σ) (next : σ → Code σ ρ)

namespace Code

variable {σ : Type u} {α β ρ : Type v}

/-- The memory and the result of uninterrupted code. -/
def run : Code σ ρ → σ → σ × ρ
  | done r, s => (s, r)
  | access write next, s => (next s).run (write s)

/-- First `x`, then `f`. -/
def andThen : Code σ α → (α → Code σ β) → Code σ β
  | done a, f => f a
  | access write next, f => access write fun s => (next s).andThen f

instance : Monad (Code σ) where
  pure := done
  bind := andThen

/-- Read a part of the memory. -/
def read (get : σ → α) : Code σ α := access id fun s => done (get s)

/-- Change the memory. -/
def write (f : σ → σ) : Code σ PUnit := access f fun _ => done ⟨⟩

/-- Change the memory, with a result. -/
def act (f : σ → α × σ) : Code σ α := access (fun s => (f s).2) fun s => done (f s).1

@[simp] theorem run_pure (a : α) (s : σ) : (pure a : Code σ α).run s = (s, a) := rfl

@[simp] theorem run_bind (x : Code σ α) (f : α → Code σ β) (s : σ) :
    (x >>= f).run s = (f (x.run s).2).run (x.run s).1 := by
  change (x.andThen f).run s = _
  induction x generalizing s with
  | done a => rfl
  | access write next ih => exact ih s (write s)

@[simp] theorem run_read (get : σ → α) (s : σ) : (read get).run s = (s, get s) := rfl

@[simp] theorem run_write (f : σ → σ) (s : σ) : (write f : Code σ PUnit).run s = (f s, ⟨⟩) := rfl

@[simp] theorem run_act (f : σ → α × σ) (s : σ) : (act f).run s = ((f s).2, (f s).1) := rfl

end Code

/-! ## Threads -/

variable {τ ι σ ρ : Type*}

/-- Where a thread is: between two calls, or inside one with code left to do. -/
inductive Place (σ ρ : Type*)
  | outside
  | inside (code : Code σ ρ)

/-- A thread: the calls it will make, where it is, and the answers it has got. -/
structure Thread (ι σ ρ : Type*) where
  todo : List ι
  place : Place σ ρ
  answers : List ρ

/-- The threads with their memory and their mutex, and the calls in the order in which they took it. -/
structure System (τ ι σ ρ : Type*) where
  mem : σ
  owner : Option τ
  threads : τ → Thread ι σ ρ
  order : List (τ × ι)

/-- The threads before their first call. -/
def start (s : σ) (calls : τ → List ι) : System τ ι σ ρ := ⟨s, none, fun t => ⟨calls t, .outside, []⟩, []⟩

variable [DecidableEq τ] (body : ι → Code σ ρ)

/-- A turn of thread `t`. A thread that finds the mutex taken waits, and a thread without calls does nothing. -/
def turn (s : System τ ι σ ρ) (t : τ) : System τ ι σ ρ :=
  match (s.threads t).place with
  | .outside =>
    match (s.threads t).todo, s.owner with
    | c :: todo, none => { s with
        owner := some t
        threads := Function.update s.threads t { s.threads t with todo := todo, place := .inside (body c) }
        order := s.order ++ [(t, c)] }
    | _, _ => s
  | .inside (.access write next) => { s with
      mem := write s.mem
      threads := Function.update s.threads t { s.threads t with place := .inside (next s.mem) } }
  | .inside (.done r) => { s with
      owner := none
      threads := Function.update s.threads t
        { s.threads t with place := .outside, answers := (s.threads t).answers ++ [r] } }

/-- One call at once, on the memory and the answers so far. -/
def sequentialCall (atomic : ι → σ → σ × ρ) (s : σ × List (τ × ρ)) (a : τ × ι) : σ × List (τ × ρ) :=
  ((atomic a.2 s.1).1, s.2 ++ [(a.1, (atomic a.2 s.1).2)])

/-- The calls one after another. -/
def sequential (atomic : ι → σ → σ × ρ) (s : σ) (order : List (τ × ι)) : σ × List (τ × ρ) :=
  run (sequentialCall atomic) (s, []) order

/-- What belongs to thread `t` in a list. -/
def ofThread {α : Type*} (t : τ) (l : List (τ × α)) : List α := l.filterMap fun a => if a.1 = t then some a.2 else none

section OfThread

variable {α : Type*} {t u : τ}

@[simp] theorem ofThread_append (l l' : List (τ × α)) : ofThread t (l ++ l') = ofThread t l ++ ofThread t l' :=
  List.filterMap_append

@[simp] theorem ofThread_self (a : α) : ofThread t [(t, a)] = [a] := by
  simp [ofThread]

theorem ofThread_of_ne (h : u ≠ t) (a : α) : ofThread t [(u, a)] = [] := by
  simp [ofThread, h]

end OfThread

variable {body}

omit [DecidableEq τ] in
theorem sequential_concat (atomic : ι → σ → σ × ρ) (s : σ) (order : List (τ × ι)) (a : τ × ι) :
    sequential atomic s (order ++ [a]) = sequentialCall atomic (sequential atomic s order) a :=
  run_concat ..

omit [DecidableEq τ] in
/-- Each call gets an answer. -/
theorem length_sequential (atomic : ι → σ → σ × ρ) (s : σ) (order : List (τ × ι)) :
    (sequential atomic s order).2.length = order.length := by
  induction order using List.reverseRecOn with
  | nil => rfl
  | append_singleton order a ih => simp [sequential_concat, sequentialCall, ih]

omit [DecidableEq τ] in
/-- **Simulation**: calls that keep a relation to another memory, and answer as the calls there do, do so one after
another. -/
theorem sequential_sim {ψ ω : Type*} {atomic : ι → σ → σ × ρ} {abstract : ι → ψ → ψ × ω} (R : σ → ψ → Prop)
    (reply : ρ → ω) {s : σ} {q : ψ} (hs : R s q) {order : List (τ × ι)}
    (h : ∀ a ∈ order, ∀ s q, R s q →
      R (atomic a.2 s).1 (abstract a.2 q).1 ∧ reply (atomic a.2 s).2 = (abstract a.2 q).2) :
    R (sequential atomic s order).1 (sequential abstract q order).1 ∧
      (sequential atomic s order).2.map (Prod.map id reply) = (sequential abstract q order).2 := by
  induction order using List.reverseRecOn with
  | nil => exact ⟨hs, rfl⟩
  | append_singleton order a ih =>
      obtain ⟨hR, hreplies⟩ := ih fun a' ha' => h a' (List.mem_append_left _ ha')
      obtain ⟨hR', hreply⟩ := h a (by simp) _ _ hR
      simp only [sequential_concat, sequentialCall]
      exact ⟨hR', by simp [hreplies, hreply]⟩

theorem map_ofThread {α β : Type*} (f : α → β) (t : τ) (l : List (τ × α)) :
    (ofThread t l).map f = ofThread t (l.map (Prod.map id f)) := by
  induction l with
  | nil => rfl
  | cons a l ih =>
      simp only [ofThread, List.map_cons, List.filterMap_cons, Prod.map_fst, id] at ih ⊢
      split_ifs
      · simp [ih]
      · exact ih

/-- The calls one after another, each without interruption. -/
def uninterrupted (body : ι → Code σ ρ) (s : σ) (order : List (τ × ι)) : σ × List (τ × ρ) :=
  sequential (fun c => (body c).run) s order

/-! ## The invariant -/

/-- Who holds the mutex, and what is left of the call inside: nothing, or code that will do to the memory what the
uninterrupted call does after those before it. -/
inductive Holds (body : ι → Code σ ρ) (s₀ : σ) (s : System τ ι σ ρ) : Prop
  | free (howner : s.owner = none) (hplace : ∀ t, (s.threads t).place = .outside)
      (hmem : s.mem = (uninterrupted body s₀ s.order).1)
      (hanswers : ∀ t, (s.threads t).answers = ofThread t (uninterrupted body s₀ s.order).2)
  | taken (t : τ) (c : ι) (code : Code σ ρ) (before : List (τ × ι)) (howner : s.owner = some t)
      (horder : s.order = before ++ [(t, c)]) (hinside : (s.threads t).place = .inside code)
      (hplace : ∀ u, u ≠ t → (s.threads u).place = .outside)
      (hcode : code.run s.mem = (body c).run (uninterrupted body s₀ before).1)
      (hanswers : ∀ u, (s.threads u).answers = ofThread u (uninterrupted body s₀ before).2)

/-- The calls of each thread in order, and the mutex. -/
structure Linear (body : ι → Code σ ρ) (s₀ : σ) (calls : τ → List ι) (s : System τ ι σ ρ) : Prop where
  holds : Holds body s₀ s
  program : ∀ t, ofThread t s.order ++ (s.threads t).todo = calls t

variable {s₀ : σ} {calls : τ → List ι} {s : System τ ι σ ρ}

theorem linear_start : Linear body s₀ calls (start s₀ calls) :=
  ⟨.free rfl (fun _ => rfl) rfl fun _ => rfl, fun _ => rfl⟩

/-- A thread that is inside holds the mutex. -/
theorem Holds.inside {t : τ} {code : Code σ ρ} (h : Holds body s₀ s) (ht : (s.threads t).place = .inside code) :
    ∃ c before, s.owner = some t ∧ s.order = before ++ [(t, c)] ∧
      (∀ u, u ≠ t → (s.threads u).place = .outside) ∧
      code.run s.mem = (body c).run (uninterrupted body s₀ before).1 ∧
      ∀ u, (s.threads u).answers = ofThread u (uninterrupted body s₀ before).2 := by
  cases h with
  | free howner hplace hmem hanswers => exact absurd ((hplace t).symm.trans ht) (by simp)
  | taken t' c code' before howner horder hinside hplace hcode hanswers =>
      obtain rfl : t = t' := by
        by_contra hne
        exact absurd ((hplace t hne).symm.trans ht) (by simp)
      obtain rfl : code' = code := by simpa using hinside.symm.trans ht
      exact ⟨c, before, howner, horder, hplace, hcode, hanswers⟩

/-- What a turn does. -/
theorem turn_cases (s : System τ ι σ ρ) (t : τ) : turn body s t = s ∨
    (∃ c todo answers, s.threads t = ⟨c :: todo, .outside, answers⟩ ∧ s.owner = none ∧ turn body s t = { s with
      owner := some t
      threads := Function.update s.threads t ⟨todo, .inside (body c), answers⟩
      order := s.order ++ [(t, c)] }) ∨
    (∃ todo write next answers, s.threads t = ⟨todo, .inside (.access write next), answers⟩ ∧
      turn body s t = { s with
        mem := write s.mem
        threads := Function.update s.threads t ⟨todo, .inside (next s.mem), answers⟩ }) ∨
    ∃ todo r answers, s.threads t = ⟨todo, .inside (.done r), answers⟩ ∧ turn body s t = { s with
      owner := none
      threads := Function.update s.threads t ⟨todo, .outside, answers ++ [r]⟩ } := by
  unfold turn
  rcases s.threads t with ⟨todo, place, answers⟩
  rcases place with _ | _ | _
  · cases todo with
    | nil => exact .inl rfl
    | cons c todo =>
        cases howner : s.owner with
        | some u => exact .inl rfl
        | none => exact .inr (.inl ⟨c, todo, answers, rfl, rfl, rfl⟩)
  · exact .inr (.inr (.inr ⟨_, _, _, rfl, rfl⟩))
  · exact .inr (.inr (.inl ⟨_, _, _, _, rfl, rfl⟩))

/-- **A turn keeps the invariant.** -/
theorem linear_turn (h : Linear body s₀ calls s) (t : τ) : Linear body s₀ calls (turn body s t) := by
  rcases turn_cases s t with heq | ⟨c, todo, answers, ht, hfree, heq⟩ | ⟨todo, write, next, answers, ht, heq⟩ |
    ⟨todo, r, answers, ht, heq⟩
  · rwa [heq]
  · rw [heq]
    have hother : ∀ u, u ≠ t →
        Function.update s.threads t ⟨todo, .inside (body c), answers⟩ u = s.threads u :=
      fun u hu => Function.update_of_ne hu _ _
    obtain ⟨-, hplace, hmem, hanswers⟩ | ⟨_, _, _, _, howner, _⟩ := h.holds
    · refine ⟨.taken t c (body c) s.order rfl rfl (by simp) (fun u hu => ?_) (by rw [hmem]) fun u => ?_, fun u => ?_⟩
      · simp only [hother u hu]
        exact hplace u
      · by_cases hu : u = t
        · subst hu
          have hself := hanswers u
          rw [ht] at hself
          simpa using hself
        · simp only [hother u hu]
          exact hanswers u
      · by_cases hu : u = t
        · subst hu
          have hself := h.program u
          rw [ht] at hself
          simpa using hself
        · simp only [hother u hu, ofThread_append, ofThread_of_ne (Ne.symm hu), List.append_nil]
          exact h.program u
    · exact absurd (hfree.symm.trans howner) (by simp)
  · rw [heq]
    have hother : ∀ u, u ≠ t →
        Function.update s.threads t ⟨todo, .inside (next s.mem), answers⟩ u = s.threads u :=
      fun u hu => Function.update_of_ne hu _ _
    obtain ⟨c, before, howner, horder, hplace, hcode, hanswers⟩ := h.holds.inside (by rw [ht])
    refine ⟨.taken t c (next s.mem) before howner horder (by simp) (fun u hu => ?_) hcode fun u => ?_, fun u => ?_⟩
    · simp only [hother u hu]
      exact hplace u hu
    · rw [← hanswers u]
      by_cases hu : u = t
      · subst hu
        simp [ht]
      · simp only [hother u hu]
    · rw [← h.program u]
      by_cases hu : u = t
      · subst hu
        simp [ht]
      · simp only [hother u hu]
  · rw [heq]
    have hother : ∀ u, u ≠ t →
        Function.update s.threads t ⟨todo, .outside, answers ++ [r]⟩ u = s.threads u :=
      fun u hu => Function.update_of_ne hu _ _
    obtain ⟨c, before, howner, horder, hplace, hcode, hanswers⟩ := h.holds.inside (by rw [ht])
    have hlast : uninterrupted body s₀ s.order = (s.mem, (uninterrupted body s₀ before).2 ++ [(t, r)]) := by
      rw [horder, uninterrupted, sequential_concat, sequentialCall, ← uninterrupted, ← hcode]
      rfl
    refine ⟨.free rfl (fun u => ?_) (by rw [hlast]) fun u => ?_, fun u => ?_⟩
    · by_cases hu : u = t
      · subst hu
        simp
      · simp only [hother u hu]
        exact hplace u hu
    · simp only [hlast, ofThread_append]
      by_cases hu : u = t
      · subst hu
        have hself := hanswers u
        rw [ht] at hself
        simp [← hself]
      · simp only [hother u hu, ofThread_of_ne (Ne.symm hu), List.append_nil]
        exact hanswers u
    · rw [← h.program u]
      by_cases hu : u = t
      · subst hu
        simp [ht]
      · simp only [hother u hu]

/-- **Every run keeps the invariant.** -/
theorem linear_run (s₀ : σ) (calls : τ → List ι) (schedule : List τ) :
    Linear body s₀ calls (run (turn body) (start s₀ calls) schedule) :=
  run_induction linear_start fun _ t _ h => linear_turn h t

/-! ## Runs -/

/-- **Calls under a mutex are atomic.** In whatever order the threads take their turns, whenever the mutex is free: each
thread has taken it for its calls in their order, the memory is what these calls leave one after another in the order
in which they took the mutex, and each thread has got the answers that they give. -/
theorem linearizable {atomic : ι → σ → σ × ρ} (hbody : ∀ c s, (body c).run s = atomic c s) (schedule : List τ)
    (hfree : (run (turn body) (start s₀ calls) schedule).owner = none) :
    let s := run (turn body) (start s₀ calls) schedule
    s.mem = (sequential atomic s₀ s.order).1 ∧ ∀ t,
      ofThread t s.order ++ (s.threads t).todo = calls t ∧
      (s.threads t).answers = ofThread t (sequential atomic s₀ s.order).2 := by
  intro s
  obtain rfl : (fun c => (body c).run) = atomic := funext fun c => funext (hbody c)
  have h : Linear body s₀ calls s := linear_run s₀ calls schedule
  obtain ⟨-, -, hmem, hanswers⟩ | ⟨_, _, _, _, howner, _⟩ := h.holds
  · exact ⟨hmem, fun t => ⟨h.program t, hanswers t⟩⟩
  · exact absurd (hfree.symm.trans howner) (by simp)

/-- Code that is left alone comes to its end. -/
theorem exists_free_of_inside (body : ι → Code σ ρ) {t : τ} {code : Code σ ρ}
    (hin : (s.threads t).place = .inside code) :
    ∃ n, (run (turn body) s (List.replicate n t)).owner = none ∧
      ((run (turn body) s (List.replicate n t)).threads t).todo = (s.threads t).todo := by
  induction code generalizing s with
  | done r =>
      rcases hthread : s.threads t with ⟨todo, place, answers⟩
      obtain rfl : place = .inside (.done r) := by simpa [hthread] using hin
      exact ⟨1, by simp [turn, hthread]⟩
  | access write next ih =>
      rcases hthread : s.threads t with ⟨todo, place, answers⟩
      obtain rfl : place = .inside (.access write next) := by simpa [hthread] using hin
      have hturn : (turn body s t).threads t = ⟨todo, .inside (next s.mem), answers⟩ := by
        simp [turn, hthread]
      obtain ⟨n, hn⟩ := ih s.mem (s := turn body s t) (by rw [hturn])
      rw [hturn] at hn
      exact ⟨n + 1, hn⟩

/-- A thread that is left alone while the mutex is free makes all its calls. -/
theorem exists_made_of_free (h : Linear body s₀ calls s) (hfree : s.owner = none) (t : τ) :
    ∃ n, (run (turn body) s (List.replicate n t)).owner = none ∧
      ((run (turn body) s (List.replicate n t)).threads t).todo = [] := by
  rcases hthread : s.threads t with ⟨todo, place, answers⟩
  induction todo generalizing s place answers with
  | nil => exact ⟨0, hfree, by simp [hthread]⟩
  | cons c todo ih =>
      obtain rfl : place = .outside := by
        obtain ⟨-, hplace, -⟩ | ⟨_, _, _, _, howner, _⟩ := h.holds
        · simpa [hthread] using hplace t
        · exact absurd (hfree.symm.trans howner) (by simp)
      have hturn : (turn body s t).threads t = ⟨todo, .inside (body c), answers⟩ := by
        simp [turn, hthread, hfree]
      obtain ⟨n, hown, htodo⟩ := exists_free_of_inside body (s := turn body s t) (by rw [hturn])
      rw [hturn] at htodo
      have hlinear : Linear body s₀ calls (run (turn body) (turn body s t) (List.replicate n t)) :=
        run_induction (linear_turn h t) fun _ u _ h => linear_turn h u
      rcases hrest : (run (turn body) (turn body s t) (List.replicate n t)).threads t with ⟨rest, place, answers'⟩
      obtain rfl : rest = todo := by simpa [hrest] using htodo
      obtain ⟨m, hm⟩ := ih hlinear hown place answers' hrest
      refine ⟨1 + n + m, ?_⟩
      rwa [List.replicate_add, List.replicate_add, run_append, run_append]

/-- **No run gets stuck.** From every state of a run, every thread can still make all its calls. -/
theorem exists_made (s₀ : σ) (calls : τ → List ι) (schedule : List τ) (t : τ) : ∃ more,
    let s := run (turn body) (run (turn body) (start s₀ calls) schedule) more
    s.owner = none ∧ (s.threads t).todo = [] := by
  have h : Linear body s₀ calls (run (turn body) (start s₀ calls) schedule) := linear_run s₀ calls schedule
  generalize run (turn body) (start s₀ calls) schedule = s at h
  obtain ⟨free, hfree⟩ : ∃ free, (run (turn body) s free).owner = none := by
    obtain ⟨howner, -⟩ | ⟨u, c, code, before, -, -, hinside, -⟩ := h.holds
    · exact ⟨[], howner⟩
    · obtain ⟨n, hn, -⟩ := exists_free_of_inside body hinside
      exact ⟨List.replicate n u, hn⟩
  have hlinear : Linear body s₀ calls (run (turn body) s free) := run_induction h fun _ u _ h => linear_turn h u
  obtain ⟨n, hn⟩ := exists_made_of_free hlinear hfree t
  refine ⟨free ++ List.replicate n t, ?_⟩
  rwa [run_append]

end Mutex
