import ImageBuild.Proofs.TaskGroup.Unwinding

/-!
# `ImageBuild.Proofs.TaskGroup.Scope`: who cancels the scope, and what comes too late

The scope of a group is cancelled from outside, or by whoever stored the first failure.

* `first_caused_before`: what is stored at the end was brought about by a body that was over when
  the scope was cancelled. Whatever a body ends with later has no say.
* `Undisturbed`: without a cancellation from outside, a cancelled scope and every failure that is
  over mean that a failure is stored or that the waiter is about to store one.
* `exists_endedCancelled`: such a group reports that it was cancelled only if a body ended with
  cancellation by itself.
-/

set_option autoImplicit false

namespace ImageBuild.TaskGroup

variable {g g' : TaskGroup} {s : Step} {fault : BuildFault}

/-! ### What comes too late -/

/-- In a cancelled scope nothing is found open. -/
theorem found?_of_scopeCancelled (hscope : g.outcome.scopeCancelled = true) (s : Step) :
    g.found? s = none := by
  rw [found?, Option.bind_eq_none_iff]
  intro r _
  cases r with
  | examine fault => simp [Recording.found?, hscope]
  | store | cancel => rfl

/-- Nothing finds a cancelled scope open. -/
theorem foundOpen_of_scopeCancelled (hscope : g.outcome.scopeCancelled = true)
    (steps : List Step) :
    g.foundOpen steps = [] := by
  induction steps generalizing g with
  | nil => rfl
  | cons s rest ih =>
    have hnext : (g.next s).outcome.scopeCancelled = true :=
      next_preserves (P := fun g => g.outcome.scopeCancelled = true) Takes.scopeCancelled hscope s
    rw [foundOpen_cons, found?_of_scopeCancelled hscope, ih hnext]
    rfl

/-- What is found open in a run is what its parts find, one after the other. -/
theorem foundOpen_append (g : TaskGroup) (before after : List Step) :
    g.foundOpen (before ++ after) = g.foundOpen before ++ (g.advance before).foundOpen after := by
  induction before generalizing g with
  | nil => rfl
  | cons s rest ih =>
    rw [List.cons_append, foundOpen_cons, foundOpen_cons, ih, List.append_assoc]
    rfl

/-- What is stored has found the scope open. -/
theorem first_mem_foundOpen (names : List String) (cancelled : Bool) (steps : List Step)
    (hfirst : ((ofNames names cancelled).advance steps).outcome.first = some fault) :
    fault ∈ (ofNames names cancelled).foundOpen steps := by
  have hstored := advance_first (ofNames names cancelled) steps
  rw [hfirst] at hstored
  have harrived : fault ∈ (ofNames names cancelled).arrivals steps :=
    List.mem_of_head? hstored.symm
  -- What has arrived in the run was pending at its start, when nothing was, or it was found in
  -- it.
  have hcount := advance_count (ofNames names cancelled) steps fault
  have hstart : (ofNames names cancelled).pending = [] := by
    simp [pending, ofNames, Entry.pending?]
  rw [hstart, List.count_nil] at hcount
  have hpos := List.count_pos_iff.mpr harrived
  exact List.count_pos_iff.mp (by omega)

/-- What is stored after a run is what a body ended with that was over when the scope was
cancelled. -/
theorem first_caused_before (names : List String) (cancelled : Bool) (before after : List Step)
    (hscope : ((ofNames names cancelled).advance before).outcome.scopeCancelled = true)
    (hfirst : ((ofNames names cancelled).advance (before ++ after)).outcome.first = some fault) :
    ∃ e ∈ ((ofNames names cancelled).advance before).tasks, e.Causes fault := by
  have hfound := first_mem_foundOpen names cancelled _ hfirst
  rw [foundOpen_append, foundOpen_of_scopeCancelled hscope, List.append_nil] at hfound
  exact (foundOpen_causes (invariant_ofNames names cancelled) before hfound).2

/-! ### A group that nobody cancels from outside -/

/-- A failure is stored, or the waiter records a panic. -/
def Heard (g : TaskGroup) : Prop := g.outcome.first.isSome = true ∨ g.waiter.isSome = true

/-- A task whose recording is over ended well or with cancellation, or else a failure is heard. -/
def Entry.IsHeard (g : TaskGroup) (e : Entry) : Prop :=
  match e.phase with
  | .recording .cancel => g.outcome.first.isSome = true
  | .completed false | .joined => e.ended = some .ok ∨ e.EndedCancelled ∨ g.Heard
  | .running | .recording (.examine _) | .recording (.store _) | .completed true => True

/-- What holds of a group at all times as long as nobody cancels its scope from outside. -/
structure Undisturbed (g : TaskGroup) : Prop extends g.ScopeInvariant where
  scope : g.outcome.scopeCancelled = true → g.outcome.first.isSome = true
  task : ∀ e ∈ g.tasks, e.IsHeard g
  panic : g.waiter = some .cancel → g.outcome.first.isSome = true

/-- A group that has just been made is undisturbed, if its scope is open. -/
theorem undisturbed_ofNames (names : List String) : (ofNames names false).Undisturbed where
  toScopeInvariant := scopeInvariant_ofNames names false
  scope h := by cases h
  task e he := by
    obtain ⟨name, -, rfl⟩ := List.mem_map.mp he
    trivial
  panic h := by cases h

/-- A recording never takes the first failure back. -/
theorem Recording.isSome_first_step {o : Outcome} (r : Recording) (h : o.first.isSome = true) :
    (r.step o).1.first.isSome = true := by
  rw [first_step, Option.isSome_or, h, Bool.true_or]

/-- Once there is a first failure there always is. -/
theorem Takes.isSome_first (h : Takes g s g') (hfirst : g.outcome.first.isSome = true) :
    g'.outcome.first.isSome = true := by
  cases h with
  | cancel | finish | drop | join => exact hfirst
  | record | recordPanic => exact Recording.isSome_first_step _ hfirst

/-- A recording that is over has left a failure behind, unless it was about cancellation. -/
theorem Recording.isSome_first_of_done {o : Outcome} {r : Recording}
    (hscope : o.scopeCancelled = true → o.first.isSome = true)
    (hcancel : r = .cancel → o.first.isSome = true) (hne : r ≠ .examine .cancelled)
    (hdone : (r.step o).2 = none ∨ (r.step o).2 = some .cancel) :
    (r.step o).1.first.isSome = true := by
  cases r with
  | examine fault =>
    have hgenuine : fault.isCancelled = false := by
      rw [Bool.eq_false_iff]
      intro hc
      exact hne (by rw [BuildFault.isCancelled_iff.mp hc])
    rw [step] at hdone ⊢
    rw [hgenuine, Bool.false_or] at hdone ⊢
    split at hdone
    · next hclosed =>
      rw [if_pos hclosed]
      exact hscope hclosed
    · rcases hdone with hdone | hdone <;> cases hdone
  | store fault => rw [first_step, arriving?, Option.isSome_or, Option.isSome_some, Bool.or_true]
  | cancel => exact isSome_first_step _ (hcancel rfl)

/-- A recording cancels the scope only with a first failure at hand. -/
theorem Recording.scopeCancelled_of_step {o : Outcome} {r : Recording}
    (hscope : o.scopeCancelled = true → o.first.isSome = true)
    (hcancel : r = .cancel → o.first.isSome = true)
    (h : (r.step o).1.scopeCancelled = true) : (r.step o).1.first.isSome = true := by
  cases r with
  | examine fault =>
    refine isSome_first_step _ (hscope ?_)
    rw [step] at h
    split at h <;> exact h
  | store fault => rw [first_step, arriving?, Option.isSome_or, Option.isSome_some, Bool.or_true]
  | cancel => exact isSome_first_step _ (hcancel rfl)

/-- The waiter records panics, and a panic does not stand for cancellation. -/
theorem Invariant.waiter_ne (hinv : g.Invariant) {r : Recording} (hw : g.waiter = some r) :
    r ≠ .examine .cancelled := by
  rintro rfl
  obtain ⟨e, -, -, -, hfits⟩ := hinv.waiter _ hw
  cases hfits

/-- What is heard stays heard: the waiter ends a recording only after a failure is stored. -/
theorem Takes.heard (h : Takes g s g') (hinv : g.Undisturbed) (hheard : g.Heard) : g'.Heard := by
  rcases hheard with hfirst | hw
  · exact Or.inl (h.isSome_first hfirst)
  · cases h with
    | cancel | finish | drop | record => exact Or.inr hw
    | join hnone => rw [hnone] at hw; cases hw
    | @recordPanic r hr =>
      cases hdone : (r.step g.outcome).2 with
      | some r' => exact Or.inr rfl
      | none =>
        exact Or.inl (Recording.isSome_first_of_done hinv.scope (fun hc => hinv.panic (hc ▸ hr))
          (hinv.waiter_ne hr) (Or.inl hdone))

/-- What was heard of a task stays heard. -/
theorem Entry.IsHeard.mono {e : Entry} (h : e.IsHeard g)
    (hfirst : g.outcome.first.isSome = true → g'.outcome.first.isSome = true)
    (hheard : g.Heard → g'.Heard) : e.IsHeard g' := by
  obtain ⟨name, phase, ended⟩ := e
  cases phase with
  | running => trivial
  | recording r =>
    cases r with
    | cancel => exact hfirst h
    | examine | store => trivial
  | completed panicked =>
    cases panicked with
    | true => trivial
    | false => exact Or.imp_right (Or.imp_right hheard) h
  | joined => exact Or.imp_right (Or.imp_right hheard) h

/-- What a step lets a task end with is heard or about to be. -/
theorem Takes.isHeard (h : Takes g s g') (hinv : g.Undisturbed) :
    ∀ e ∈ g'.tasks, e.IsHeard g' := by
  intro e he
  have hkept : e ∈ g.tasks → e.IsHeard g' := fun he =>
    (hinv.task e he).mono h.isSome_first (h.heard hinv)
  have hheard := h.heard hinv
  cases h with
  | cancel | recordPanic => exact hkept he
  | @finish i name ended how hi =>
    rcases List.mem_or_eq_of_mem_set he with he | rfl
    · exact hkept he
    · cases how with
      | ok => exact Or.inl rfl
      | failed | panicked => trivial
  | drop hi =>
    rcases List.mem_or_eq_of_mem_set he with he | rfl
    · exact hkept he
    · trivial
  | @join i name panicked ended hw hi =>
    rcases List.mem_or_eq_of_mem_set he with he | rfl
    · exact hkept he
    · cases panicked with
      | true => exact Or.inr (Or.inr (Or.inr rfl))
      | false =>
        have hbefore : ended = some .ok ∨ _ ∨ g.Heard := hinv.task _ (List.mem_of_getElem? hi)
        exact hbefore.imp_right (Or.imp_right hheard)
  | @record i name r ended hi =>
    rcases List.mem_or_eq_of_mem_set he with he | rfl
    · exact hkept he
    · have hmem := List.mem_of_getElem? hi
      have hcancel : r = .cancel → g.outcome.first.isSome = true := by
        rintro rfl; exact hinv.task _ hmem
      have hstored : r ≠ .examine .cancelled →
          (r.step g.outcome).2 = none ∨ (r.step g.outcome).2 = some .cancel →
          (r.step g.outcome).1.first.isSome = true :=
        Recording.isSome_first_of_done hinv.scope hcancel
      by_cases hr : r = .examine .cancelled
      · -- The body ended with cancellation, or it was dropped, and then the scope is cancelled.
        subst hr
        have hfits : ended = some (.failed .cancelled) ∨ ended = none ∧ _ := hinv.entry _ hmem
        refine Or.inr ?_
        rcases hfits with hended | ⟨hended, -⟩
        · exact Or.inl hended
        · exact Or.inr (Or.inl (Recording.isSome_first_step _
            (hinv.scope (hinv.dropped _ hmem (by simp) hended))))
      · cases hrest : (r.step g.outcome).2 with
        | none => exact Or.inr (Or.inr (Or.inl (hstored hr (Or.inl hrest))))
        | some r' =>
          cases r' with
          | examine | store => trivial
          | cancel => exact hstored hr (Or.inr hrest)

/-- Unless the caller cancels, a cancelled scope has a first failure. -/
theorem Takes.scope_of_first (h : Takes g s g') (hs : s ≠ .cancel) (hinv : g.Undisturbed)
    (hscope : g'.outcome.scopeCancelled = true) : g'.outcome.first.isSome = true := by
  cases h with
  | cancel => exact absurd rfl hs
  | finish | drop | join => exact hinv.scope hscope
  | @record i name r ended hi =>
    refine Recording.scopeCancelled_of_step hinv.scope ?_ hscope
    rintro rfl
    exact hinv.task _ (List.mem_of_getElem? hi)
  | @recordPanic r hr =>
    exact Recording.scopeCancelled_of_step hinv.scope (fun hc => hinv.panic (hc ▸ hr)) hscope

/-- The waiter goes on to cancel after a panic only with a first failure at hand. -/
theorem Takes.first_of_panic (h : Takes g s g') (hinv : g.Undisturbed)
    (hw : g'.waiter = some .cancel) : g'.outcome.first.isSome = true := by
  cases h with
  | cancel | finish | drop => exact hinv.panic hw
  | record => exact Recording.isSome_first_step _ (hinv.panic hw)
  | @join i name panicked => cases panicked <;> cases hw
  | @recordPanic r hr =>
    exact Recording.isSome_first_of_done hinv.scope (fun hc => hinv.panic (hc ▸ hr))
      (hinv.waiter_ne hr) (Or.inr hw)

/-- A step that is not a cancelling from outside keeps a group undisturbed. -/
theorem Takes.undisturbed (h : Takes g s g') (hs : s ≠ .cancel) (hinv : g.Undisturbed) :
    g'.Undisturbed where
  toScopeInvariant := step_scopeInvariant h hinv.toScopeInvariant
  scope := h.scope_of_first hs hinv
  task := h.isHeard hinv
  panic := h.first_of_panic hinv

/-- So does a run without one. -/
theorem advance_undisturbed (hinv : g.Undisturbed) {steps : List Step}
    (hsteps : .cancel ∉ steps) :
    (g.advance steps).Undisturbed := by
  induction steps generalizing g with
  | nil => exact hinv
  | cons s rest ih =>
    rw [List.mem_cons, not_or] at hsteps
    have hnext : (g.next s).Undisturbed := by
      rcases takes_or_stays g s with htakes | ⟨hstays, -⟩
      · exact htakes.undisturbed (Ne.symm hsteps.1) hinv
      · rw [hstays]; exact hinv
    exact ih hnext hsteps.2

/-- Once the waiter is done, a failure is stored unless all bodies ended well or with
cancellation. -/
theorem Undisturbed.first_of_done (hinv : g.Undisturbed) {result : Except BuildFault Unit}
    (hresult : g.result? = some result) {e : Entry} (he : e ∈ g.tasks) (hok : e.ended ≠ some .ok)
    (hgenuine : ¬ e.EndedCancelled) : g.outcome.first.isSome = true := by
  obtain ⟨hjoined, hwaiter, -⟩ := result?_eq_some_iff.mp hresult
  have hheard := hinv.task e he
  rw [Entry.IsHeard, hjoined e he] at hheard
  rcases hheard with hended | hended | hfirst | hw
  · exact absurd hended hok
  · exact absurd hended hgenuine
  · exact hfirst
  · rw [hwaiter] at hw; cases hw

/-- A group that nobody cancels from outside reports that it was cancelled only if a body ended
with cancellation by itself. -/
theorem exists_endedCancelled (names : List String) {steps : List Step} (hsteps : .cancel ∉ steps)
    (h : ((ofNames names false).advance steps).result? = some (.error .cancelled)) :
    ∃ e ∈ ((ofNames names false).advance steps).tasks, e.EndedCancelled := by
  have hinv := advance_undisturbed (undisturbed_ofNames names) hsteps
  obtain ⟨-, -, hresult⟩ := result?_eq_some_iff.mp h
  obtain ⟨e, he, -, hbad⟩ := hinv.reported ((reported_iff_ne_ok hresult).mpr (by simp))
  refine Classical.byContradiction fun hnone => ?_
  have hfirst := hinv.first_of_done h he hbad fun hended => hnone ⟨e, he, hended⟩
  obtain ⟨fault, hfault⟩ := Option.isSome_iff_exists.mp hfirst
  -- What is stored is the failure of a body, and never cancellation.
  have hne := (foundOpen_causes (invariant_ofNames names false) steps
    (first_mem_foundOpen names false steps hfault)).1
  rw [hfault] at hresult
  exact hne (Except.error.inj hresult).symm

end ImageBuild.TaskGroup
