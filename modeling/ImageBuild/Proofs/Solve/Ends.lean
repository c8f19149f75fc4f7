import ImageBuild.Proofs.Solve.Steps

/-!
# `ImageBuild.Proofs.Solve.Ends`: how the three tasks of a solve end

What holds after a run and did not hold at its start was brought about by one of its steps, and
what a step brings about for good holds after the run (`took_iff`). Three facts of this kind say
when the body of a task has ended by itself:

* `sessionEnded_iff`: the session, when what kept it open has returned;
* `engineReturned_iff`: the solve task, when the engine has returned and the session was told to
  close;
* `relayEnded_iff`: the relay, when the engine's queue was closed and empty.
-/

set_option autoImplicit false

namespace ImageBuild.SolveRun

variable {r r' : SolveRun} {s : Step} {steps : List Step} {how : TaskEnd} {task : Role}

/-! ### Steps that are taken in a run -/

/-- In a run a step is taken that has a property in the state in which it is taken. -/
def Took (r : SolveRun) (steps : List Step) (P : SolveRun → Step → Prop) : Prop :=
  ∃ before s after, steps = before ++ s :: after ∧
    ((r.advance before).step? s).isSome = true ∧ P (r.advance before) s

variable {P : SolveRun → Step → Prop} {Q : SolveRun → Prop}

/-- What a step brings about for good holds after the run. -/
theorem Took.holds (h : r.Took steps P) (hinv : r.Invariant)
    (hmade : ∀ {r s r'}, Takes r s r' → r.Invariant → P r s → Q r')
    (hkept : ∀ {r s r'}, Takes r s r' → r.Invariant → Q r → Q r') : Q (r.advance steps) := by
  obtain ⟨before, s, after, rfl, hpossible, hP⟩ := h
  obtain ⟨r', hr'⟩ := Option.isSome_iff_exists.mp hpossible
  have hbefore := advance_invariant hinv before
  have htakes := takes_of_step? hr'
  have hnext : (r.advance before).next s = r' := by rw [next, hr']; rfl
  rw [advance_append]
  show Q (((r.advance before).next s).advance after)
  rw [hnext]
  -- From the state after the step on, every step keeps what it brought about.
  exact (step_invariant htakes hbefore).preserves hkept (hmade htakes hbefore hP) after

/-- What holds after a run held before, or one of the steps brought it about. -/
theorem before_or_took (hinv : r.Invariant)
    (hback : ∀ {r s r'}, Takes r s r' → r.Invariant → Q r' → Q r ∨ P r s)
    (h : Q (r.advance steps)) : Q r ∨ r.Took steps P := by
  -- Either the rest of the run brought it about, or it held before the rest, and then it came
  -- with the first step or held before that.
  induction steps generalizing r with
  | nil => exact Or.inl h
  | cons s rest ih =>
    rcases takes_or_stays r s with htakes | ⟨-, hstays⟩
    · rcases ih (step_invariant htakes hinv) h with hQ | ⟨before, s', after, rfl, hpossible, hP⟩
      · rcases hback htakes hinv hQ with hQ | hP
        · exact Or.inl hQ
        · by_cases hpossible : (r.step? s).isSome = true
          · exact Or.inr ⟨[], s, rest, rfl, hpossible, hP⟩
          · -- The step was not possible, so nothing has changed.
            have hsame : r.next s = r := by
              rw [next, Option.not_isSome_iff_eq_none.mp hpossible]; rfl
            rw [hsame] at hQ
            exact Or.inl hQ
      · exact Or.inr ⟨s :: before, s', after, rfl, hpossible, hP⟩
    · have hrest : (r.next s).advance rest = r.advance rest := by rw [hstays]
      change Q ((r.next s).advance rest) at h
      rw [hrest] at h
      rcases ih hinv h with hQ | ⟨before, s', after, rfl, hpossible, hP⟩
      · exact Or.inl hQ
      · refine Or.inr ⟨s :: before, s', after, rfl, ?_⟩
        show (((r.next s).advance before).step? s').isSome = true ∧
            P ((r.next s).advance before) s'
        rw [hstays]
        exact ⟨hpossible, hP⟩

/-- What holds for good once a step has brought it about, and is brought about by such a step
only, holds after a run exactly if such a step was taken. -/
theorem took_iff (hinv : r.Invariant) (hnot : ¬ Q r)
    (hmade : ∀ {r s r'}, Takes r s r' → r.Invariant → P r s → Q r')
    (hkept : ∀ {r s r'}, Takes r s r' → r.Invariant → Q r → Q r')
    (hback : ∀ {r s r'}, Takes r s r' → r.Invariant → Q r' → Q r ∨ P r s) :
    r.Took steps P ↔ Q (r.advance steps) :=
  ⟨fun h => h.holds hinv hmade hkept, fun h => (before_or_took hinv hback h).resolve_left hnot⟩

/-! ### The tasks of a solve -/

variable {g : TaskGroup}

/-- The group of a solve has the invariant of groups. -/
theorem Invariant.taskGroup (hinv : r.Invariant) (hg : r.group = some g) : g.Invariant := by
  obtain ⟨cancelled, steps, rfl, -⟩ := hinv.group g hg
  exact TaskGroup.advance_invariant (TaskGroup.invariant_ofNames _ cancelled) steps

/-- There are three tasks. -/
theorem Invariant.length_tasks (hinv : r.Invariant) (hg : r.group = some g) :
    g.tasks.length = 3 := by
  obtain ⟨cancelled, steps, rfl, -⟩ := hinv.group g hg
  exact TaskGroup.advance_length_tasks _ steps

/-- Each of the three is in the group. -/
theorem Invariant.exists_task (hinv : r.Invariant) (hg : r.group = some g) (task : Role) :
    ∃ e, g.tasks[task.index]? = some e := by
  have hlength := hinv.length_tasks hg
  have hless : task.index < g.tasks.length := by cases task <;> simp [Role.index, hlength]
  exact ⟨_, List.getElem?_eq_getElem hless⟩

/-- Nothing else is. -/
theorem Invariant.task_of_mem (hinv : r.Invariant) (hg : r.group = some g) {e : TaskGroup.Entry}
    (he : e ∈ g.tasks) : ∃ task : Role, g.tasks[task.index]? = some e := by
  obtain ⟨i, hi⟩ := List.mem_iff_getElem?.mp he
  have hless := (List.getElem?_eq_some_iff.mp hi).1
  rw [hinv.length_tasks hg] at hless
  match i, hless with
  | 0, _ => exact ⟨.session, hi⟩
  | 1, _ => exact ⟨.solve, hi⟩
  | 2, _ => exact ⟨.relay, hi⟩

/-- The body of a task has ended by itself in this way. -/
def BodyEnded (r : SolveRun) (task : Role) (how : TaskEnd) : Prop :=
  ∃ g e, r.group = some g ∧ g.tasks[task.index]? = some e ∧ e.phase ≠ .running ∧
    e.ended = some how

/-- A body ends in one way. -/
theorem BodyEnded.unique {how' : TaskEnd} (h : r.BodyEnded task how)
    (h' : r.BodyEnded task how') :
    how = how' := by
  obtain ⟨g, e, hg, he, -, hended⟩ := h
  obtain ⟨g', e', hg', he', -, hended'⟩ := h'
  obtain rfl := Option.some.inj (hg.symm.trans hg')
  obtain rfl := Option.some.inj (he.symm.trans he')
  exact Option.some.inj (hended.symm.trans hended')

/-- A body has ended after the step that ends it. -/
theorem bodyEnded_of_finish {g' : TaskGroup} (hg : r.group = some g')
    (h : g.Takes (.finish task.index how) g') : r.BodyEnded task how := by
  obtain ⟨e, he, hover, hended⟩ := h.of_finish
  exact ⟨g', e, hg, he, hover, hended⟩

/-- A body that has ended has ended for good. -/
theorem Takes.bodyEnded (h : Takes r s r') (hinv : r.Invariant) (hended : r.BodyEnded task how) :
    r'.BodyEnded task how := by
  obtain ⟨g, e, hg, he, hover, hend⟩ := hended
  obtain ⟨g', hg', rfl | ⟨t, -, htakes⟩⟩ := h.group_of_some hinv hg
  · exact ⟨g', e, hg', he, hover, hend⟩
  · rcases htakes.task he with he' | ⟨-, -, hrunning, -⟩ | ⟨-, hrunning, -⟩ |
      ⟨-, -, phase, hphase, he'⟩
    · exact ⟨g', e, hg', he', hover, hend⟩
    · exact absurd hrunning hover
    · exact absurd hrunning hover
    · exact ⟨g', _, hg', he', hphase, hend⟩

/-- A body ends in a step that is the end of that body in the group. -/
theorem Takes.bodyEnded_before (h : Takes r s r') (hinv : r.Invariant)
    (hended : r'.BodyEnded task how) :
    r.BodyEnded task how ∨ r.IsGroupStep s (.finish task.index how) := by
  obtain ⟨g', e', hg', he', hover', hend'⟩ := hended
  cases hg : r.group with
  | none =>
    -- The tasks have just been started, and no body has ended yet.
    rcases h.group_of_none hg with hnone | ⟨-, -, hstarted⟩
    · rw [hnone] at hg'; cases hg'
    · rw [hstarted] at hg'
      cases hg'
      obtain ⟨name, -, rfl⟩ := List.mem_map.mp (List.mem_of_getElem? he')
      cases hend'
  | some g =>
    obtain ⟨g'', hg'', hmoved⟩ := h.group_of_some hinv hg
    obtain rfl := Option.some.inj (hg''.symm.trans hg')
    rcases hmoved with rfl | ⟨t, ht, htakes⟩
    · exact Or.inl ⟨g'', e', hg, he', hover', hend'⟩
    · obtain ⟨e, he⟩ := hinv.exists_task hg task
      rcases htakes.task he with hsame | ⟨how', rfl, -, hnew⟩ | ⟨-, hrunning, -, hnew⟩ |
        ⟨-, hover, phase, -, hnew⟩
      · obtain rfl := Option.some.inj (hsame.symm.trans he')
        exact Or.inl ⟨g, e, hg, he, hover', hend'⟩
      · obtain rfl := Option.some.inj (hnew.symm.trans he')
        cases hend'
        exact Or.inr ht
      · -- A body that is dropped has not ended by itself.
        obtain rfl := Option.some.inj (hnew.symm.trans he')
        have hfits := (hinv.taskGroup hg).entry e (List.mem_of_getElem? he)
        rw [TaskGroup.Entry.Fits, hrunning] at hfits
        rw [show e.ended = some how from hend'] at hfits
        cases hfits
      · obtain rfl := Option.some.inj (hnew.symm.trans he')
        exact Or.inl ⟨g, e, hg, he, hover, hend'⟩

/-- No body has ended before the tasks are started. -/
theorem not_bodyEnded_of_group (hg : r.group = none) : ¬ r.BodyEnded task how := by
  rintro ⟨g, e, hg', -⟩
  rw [hg] at hg'
  cases hg'

/-- At the start no body has ended. -/
theorem not_bodyEnded_new {eventBuffer rendererRoom : Nat} :
    ¬ (new eventBuffer rendererRoom).BodyEnded task how :=
  not_bodyEnded_of_group rfl

/-! ### The three tasks -/

/-- The body of the session task ends when what kept the session open returns, and it ends well
only if the session had been told to close. -/
theorem sessionEnded_iff (hinv : r.Invariant) (hnot : ¬ r.BodyEnded .session how) :
    (r.Took steps fun r s => ∃ returned, s = .sessionReturns returned ∧
      r.sessionEnd returned = how) ↔ (r.advance steps).BodyEnded .session how := by
  refine took_iff hinv hnot ?_ Takes.bodyEnded ?_
  · rintro r s r' htakes - ⟨returned, rfl, rfl⟩
    cases htakes with
    | sessionReturns _ hg hfinish => exact bodyEnded_of_finish rfl hfinish
  · intro r s r' htakes hinv hended
    exact (htakes.bodyEnded_before hinv hended).imp_right fun ht => ht.finish_session rfl

/-- The engine has returned in this way: the solve task is about to end so, or it has. -/
def EngineReturned (r : SolveRun) (how : TaskEnd) : Prop :=
  r.solver = .returned how ∨ r.solver = .closing how ∨ r.BodyEnded .solve how

/-- An engine that has returned has returned for good. -/
theorem Takes.engineReturned (h : Takes r s r') (hinv : r.Invariant)
    (hreturned : r.EngineReturned how) : r'.EngineReturned how := by
  rcases hreturned with hsolver | hsolver | hended
  · rcases h.solver_cases with hsame | ⟨_, -, hs, -⟩ | ⟨_, -, hs, hnew⟩ | ⟨_, _, -, hs, -⟩ |
      ⟨hs, -⟩
    · exact Or.inl (hsame.trans hsolver)
    · rw [hsolver] at hs; cases hs
    · rw [hsolver] at hs; cases hs
      exact Or.inr (Or.inl hnew)
    · rw [hsolver] at hs; cases hs
    · rw [hsolver] at hs; cases hs
  · rcases h.solver_cases with hsame | ⟨_, -, hs, -⟩ | ⟨_, -, hs, -⟩ |
      ⟨_, _, -, hs, -, hg', _, hfinish⟩ | ⟨hs, -⟩
    · exact Or.inr (Or.inl (hsame.trans hsolver))
    · rw [hsolver] at hs; cases hs
    · rw [hsolver] at hs; cases hs
    · rw [hsolver] at hs; cases hs
      exact Or.inr (Or.inr (bodyEnded_of_finish hg' hfinish))
    · rw [hsolver] at hs; cases hs
  · exact Or.inr (Or.inr (h.bodyEnded hinv hended))

/-- An engine has returned after a step if it had before, or if this was the step. -/
theorem Takes.engineReturned_before (h : Takes r s r') (hinv : r.Invariant)
    (hreturned : r'.EngineReturned how) : r.EngineReturned how ∨ s = .engineReturns how := by
  rcases hreturned with hsolver | hsolver | hended
  · rcases h.solver_cases with hsame | ⟨_, rfl, -, hs⟩ | ⟨_, -, -, hs⟩ | ⟨_, _, -, -, hs, -⟩ |
      ⟨-, hs⟩
    · exact Or.inl (Or.inl (hsame.symm.trans hsolver))
    · rw [hsolver] at hs; cases hs
      exact Or.inr rfl
    all_goals rw [hsolver] at hs; cases hs
  · rcases h.solver_cases with hsame | ⟨_, -, -, hs⟩ | ⟨_, -, hbefore, hs⟩ | ⟨_, _, -, -, hs, -⟩ |
      ⟨-, hs⟩
    · exact Or.inl (Or.inr (Or.inl (hsame.symm.trans hsolver)))
    · rw [hsolver] at hs; cases hs
    · rw [hsolver] at hs; cases hs
      exact Or.inl (Or.inl hbefore)
    all_goals rw [hsolver] at hs; cases hs
  · rcases h.bodyEnded_before hinv hended with hbefore | ht
    · exact Or.inl (Or.inr (Or.inr hbefore))
    · rcases ht.finish_solve rfl with ⟨rfl, rfl⟩ | ⟨rfl, hclosing⟩
      · exact Or.inr rfl
      · exact Or.inl (Or.inr (Or.inl hclosing))

/-- The engine has returned in some way exactly if the step was taken in which it does. -/
theorem engineReturned_iff (hinv : r.Invariant) (hnot : ¬ r.EngineReturned how) :
    (r.Took steps fun _ s => s = .engineReturns how) ↔ (r.advance steps).EngineReturned how := by
  refine took_iff hinv hnot ?_ Takes.engineReturned Takes.engineReturned_before
  rintro r s r' htakes - rfl
  cases htakes with
  | engineReturns => exact Or.inl rfl
  | enginePanics _ _ _ hfinish => exact Or.inr (Or.inr (bodyEnded_of_finish rfl hfinish))

/-- As long as the engine works it has not returned. -/
theorem Invariant.not_engineReturned (hinv : r.Invariant) (hworking : r.solver = .working) :
    ¬ r.EngineReturned how := by
  rintro (hsolver | hsolver | ⟨g, e, hg, he, hover, -⟩)
  · rw [hworking] at hsolver; cases hsolver
  · rw [hworking] at hsolver; cases hsolver
  · have hrunning := hinv.solver
    rw [hg] at hrunning
    obtain ⟨e', he', hphase⟩ := hrunning (by rw [hworking]; simp)
    obtain rfl := Option.some.inj (he.symm.trans he')
    exact hover hphase

/-- At the start the engine has not returned. -/
theorem not_engineReturned_new {eventBuffer rendererRoom : Nat} :
    ¬ (new eventBuffer rendererRoom).EngineReturned how :=
  (invariant_new eventBuffer rendererRoom).not_engineReturned rfl

/-- When the solve is over, the solve task has ended as the engine has returned. -/
theorem Invariant.solveEnded_iff (hinv : r.Invariant) {result : Except BuildFault Unit}
    (hresult : r.result = some result) : r.EngineReturned how ↔ r.BodyEnded .solve how := by
  refine ⟨fun hreturned => ?_, fun hended => Or.inr (Or.inr hended)⟩
  have hreports := hinv.result result hresult
  have hsolver := hinv.solver
  have hover : r.solver = .working ∨ r.solver = .finished := by
    cases hg : r.group with
    | none => rw [hg] at hsolver; exact Or.inl hsolver
    | some g =>
      rw [hg] at hreports hsolver
      obtain ⟨hjoined, -⟩ := TaskGroup.result?_eq_some_iff.mp hreports
      refine Or.inr (Classical.byContradiction fun hnot => ?_)
      obtain ⟨e, he, hrunning⟩ := hsolver hnot
      rw [hjoined e (List.mem_of_getElem? he)] at hrunning
      cases hrunning
  -- A solve task that is about to end has not been joined.
  rcases hreturned with hs | hs | hended
  · rw [hs] at hover; simp at hover
  · rw [hs] at hover; simp at hover
  · exact hended

/-- The body of the relay task ends when the engine's queue is closed and empty. -/
theorem relayEnded_iff (hinv : r.Invariant) (hnot : ¬ r.BodyEnded .relay .ok) :
    (r.Took steps fun _ s => s = .relay .finish) ↔ (r.advance steps).BodyEnded .relay .ok := by
  refine took_iff hinv hnot ?_ Takes.bodyEnded ?_
  · rintro r s r' htakes - rfl
    cases htakes with
    | relay hfree => exact hfree.elim
    | endRelay _ _ _ hfinish => exact bodyEnded_of_finish rfl hfinish
  · intro r s r' htakes hinv hended
    exact (htakes.bodyEnded_before hinv hended).imp_right fun ht => (ht.finish_relay rfl).1

/-- The body of the relay task never ends but well. -/
theorem relayEnded_ok (hinv : r.Invariant) (hnot : ¬ r.BodyEnded .relay how)
    (hended : (r.advance steps).BodyEnded .relay how) : how = .ok := by
  have htook := (before_or_took (P := fun _ _ => how = .ok) hinv
    (fun htakes hinv hended =>
      (htakes.bodyEnded_before hinv hended).imp_right fun ht => (ht.finish_relay rfl).2)
    hended).resolve_left hnot
  obtain ⟨-, -, -, -, -, hok⟩ := htook
  exact hok

/-- A relay that has ended by itself has passed on everything, unless the renderer hung up. -/
theorem drained_of_relayEnded (hinv : r.Invariant)
    (h : r.Took steps fun _ s => s = .relay .finish) : (r.advance steps).relay.Drained := by
  refine h.holds (Q := fun r => r.relay.Drained) hinv ?_ ?_
  · rintro r s r' htakes hinv rfl
    cases htakes with
    | relay hfree => exact hfree.elim
    | endRelay _ hfinish => exact hfinish.drained_of_finish hinv.relay
  · intro r s r' htakes _ hdrained
    rcases htakes.relay_cases with hsame | ⟨t, hrelay, -, -⟩
    · rw [hsame]; exact hdrained
    · exact hrelay.drained hdrained

end ImageBuild.SolveRun
