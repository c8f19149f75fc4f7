import ImageBuild.Proofs.Solve.Ends
import ImageBuild.Proofs.TaskGroup.Scope

/-!
# `ImageBuild.Proofs.Solve.Failures`: whose failure a solve reports

A failure that a solve reports is one that a task has had (`Failed`), and the relay never has one.

* `failed_before`: in a scope that was cancelled earlier it is a failure that a task had had by
  then;
* `exists_endedBadly`: without a cancellation by the caller some task has ended badly by itself;
* `session_endedBadly`: while the engine works, that task is the session;
* `engineFailure_reported`: if the engine has failed, its failure is reported or one of the
  session.

The solve task tells the session to close before the failure of the engine is recorded, and the
session runs on meanwhile. So a session that fails to close can be heard first, and then its
failure is reported in place of the one that came before it (`closingFailure_reported`).
-/

set_option autoImplicit false

namespace ImageBuild.SolveRun

variable {r : SolveRun} {g : TaskGroup} {steps before after : List Step} {task : Role}
  {fault : BuildFault}

/-- The body of the task has ended with this failure. -/
def Failed (r : SolveRun) (task : Role) (fault : BuildFault) : Prop :=
  ∃ g e, r.group = some g ∧ g.tasks[task.index]? = some e ∧ e.Causes fault

/-- The body of the task has ended by itself, and not well. -/
def EndedBadly (r : SolveRun) (task : Role) : Prop := ∃ how, how ≠ .ok ∧ r.BodyEnded task how

/-! ### Failures and the tasks that have them -/

/-- The body of a task that failed has ended that way, or it panicked. -/
theorem Failed.bodyEnded (h : r.Failed task fault) (hinv : r.Invariant) :
    r.BodyEnded task (.failed fault) ∨ r.BodyEnded task .panicked := by
  obtain ⟨g, e, hg, he, hcauses⟩ := h
  have hover : e.phase ≠ .running := by
    intro hrunning
    have hfits := (hinv.taskGroup hg).entry e (List.mem_of_getElem? he)
    rw [TaskGroup.Entry.Fits, hrunning] at hfits
    rcases hcauses with hended | ⟨hended, -⟩ <;> rw [hfits] at hended <;> cases hended
  rcases hcauses with hended | ⟨hended, -⟩
  · exact Or.inl ⟨g, e, hg, he, hover, hended⟩
  · exact Or.inr ⟨g, e, hg, he, hover, hended⟩

/-- A task that failed did not end well. -/
theorem Failed.endedBadly (h : r.Failed task fault) (hinv : r.Invariant) : r.EndedBadly task := by
  rcases h.bodyEnded hinv with hended | hended
  · exact ⟨_, by simp, hended⟩
  · exact ⟨_, by simp, hended⟩

/-- As long as the engine works, the solve task has not ended. -/
theorem Invariant.not_endedBadly_solve (hinv : r.Invariant) (hworking : r.solver = .working) :
    ¬ r.EndedBadly .solve := by
  rintro ⟨how, -, g, e, hg, he, hover, -⟩
  have hsolver := hinv.solver
  rw [hg] at hsolver
  obtain ⟨e', he', hrunning⟩ := hsolver (by rw [hworking]; simp)
  obtain rfl := Option.some.inj (he.symm.trans he')
  exact hover hrunning

/-- The relay never ends badly. -/
theorem not_endedBadly_relay (eventBuffer rendererRoom : Nat) (steps : List Step) :
    ¬ ((new eventBuffer rendererRoom).advance steps).EndedBadly .relay := by
  rintro ⟨how, hne, hended⟩
  exact hne (relayEnded_ok (invariant_new _ _) not_bodyEnded_new hended)

/-- A task that ended badly stays so. -/
theorem EndedBadly.advance (h : r.EndedBadly task) (hinv : r.Invariant) (steps : List Step) :
    (r.advance steps).EndedBadly task := by
  obtain ⟨how, hne, hended⟩ := h
  exact ⟨how, hne, hinv.preserves (Q := fun r => r.BodyEnded task how) Takes.bodyEnded
    hended steps⟩

/-- The group of a solve goes on as a group does. -/
theorem Invariant.group_advance (hinv : r.Invariant) (hg : r.group = some g) (steps : List Step) :
    ∃ later, (r.advance steps).group = some (g.advance later) := by
  refine hinv.preserves (Q := fun r => ∃ later, r.group = some (g.advance later)) ?_
    ⟨[], hg⟩ steps
  rintro r s r' htakes hinv ⟨later, hlater⟩
  obtain ⟨g', hg', rfl | ⟨t, -, hmoved⟩⟩ := htakes.group_of_some hinv hlater
  · exact ⟨later, hg'⟩
  · exact ⟨later ++ [t], by rw [hg', hmoved.advance_concat]⟩

/-- What the solve reports in a scope that was cancelled earlier is a failure that a task had had
by then. -/
theorem Invariant.failed_before (hinv : r.Invariant) (hg : r.group = some g)
    (hscope : g.outcome.scopeCancelled = true) (hne : fault ≠ .cancelled)
    (hresult : (r.advance after).result = some (.error fault)) : ∃ task, r.Failed task fault := by
  obtain ⟨later, hlater⟩ := hinv.group_advance hg after
  have hreports := (advance_invariant hinv after).result _ hresult
  rw [hlater] at hreports
  have hfirst : (g.advance later).outcome.first = some fault := by
    obtain ⟨-, -, hresult⟩ := TaskGroup.result?_eq_some_iff.mp hreports
    cases hstored : (g.advance later).outcome.first with
    | some first =>
      rw [hstored] at hresult
      rw [Except.error.inj hresult]
    | none =>
      rw [hstored] at hresult
      cases hstopped : (g.advance later).outcome.stopped <;> simp [hstopped, hne] at hresult
  -- So it is stored at the end, and nothing has found the scope open since.
  obtain ⟨cancelled, run, rfl, -⟩ := hinv.group g hg
  rw [← TaskGroup.advance_append] at hfirst
  obtain ⟨e, he, hcauses⟩ := TaskGroup.first_caused_before _ cancelled run later hscope hfirst
  obtain ⟨task, htask⟩ := hinv.task_of_mem hg he
  exact ⟨task, _, e, hg, htask, hcauses⟩

/-! ### A solve that the caller does not cancel -/

/-- A scope that is not cancelled has never been. -/
theorem cancelled_of_advance (hnot : (r.advance steps).cancelled = false) :
    r.cancelled = false := by
  rw [Bool.eq_false_iff]
  intro hcancelled
  have hstays : (r.advance steps).cancelled = true :=
    advance_preserves (P := fun r => r.cancelled = true) Takes.cancelled hcancelled steps
  rw [hstays] at hnot
  cases hnot

/-- As long as nothing is cancelled, the group is undisturbed. -/
theorem Invariant.undisturbed (hinv : r.Invariant) (hnot : r.cancelled = false)
    (hg : r.group = some g) : g.Undisturbed := by
  obtain ⟨cancelled, run, rfl, houtside⟩ := hinv.group g hg
  obtain ⟨rfl, hrun⟩ := houtside hnot
  exact TaskGroup.advance_undisturbed (TaskGroup.undisturbed_ofNames _) hrun

/-- What is stored is the failure of a task. -/
theorem Invariant.failed_of_first (hinv : r.Invariant) (hg : r.group = some g)
    (hfirst : g.outcome.first = some fault) : ∃ task, r.Failed task fault := by
  obtain ⟨cancelled, run, rfl, -⟩ := hinv.group g hg
  have hfound := TaskGroup.first_mem_foundOpen _ cancelled run hfirst
  obtain ⟨-, e, he, hcauses⟩ :=
    TaskGroup.foundOpen_causes (TaskGroup.invariant_ofNames _ cancelled) run hfound
  obtain ⟨task, htask⟩ := hinv.task_of_mem hg he
  exact ⟨task, _, e, hg, htask, hcauses⟩

section
variable {eventBuffer rendererRoom : Nat}

/-- While the engine works, the scope is cancelled by the caller or for a failure of the
session. -/
theorem session_endedBadly (hnot : ((new eventBuffer rendererRoom).advance before).cancelled =
    false) (hg : ((new eventBuffer rendererRoom).advance before).group = some g)
    (hscope : g.outcome.scopeCancelled = true)
    (hworking : ((new eventBuffer rendererRoom).advance before).solver = .working) :
    ((new eventBuffer rendererRoom).advance before).EndedBadly .session := by
  have hinv := advance_invariant (invariant_new eventBuffer rendererRoom) before
  obtain ⟨fault, hfirst⟩ :=
    Option.isSome_iff_exists.mp ((hinv.undisturbed hnot hg).scope hscope)
  obtain ⟨task, hfailed⟩ := hinv.failed_of_first hg hfirst
  have hbad := hfailed.endedBadly hinv
  cases task with
  | session => exact hbad
  | solve => exact absurd hbad (hinv.not_endedBadly_solve hworking)
  | relay => exact absurd hbad (not_endedBadly_relay _ _ before)

/-- An engine that has not returned well did so in an open scope, or the session has ended
badly. -/
theorem returned_in_open_scope {how : TaskEnd}
    (hnot : ((new eventBuffer rendererRoom).advance steps).cancelled = false)
    (hreturned : (new eventBuffer rendererRoom).Took steps fun _ s => s = .engineReturns how) :
    ((new eventBuffer rendererRoom).advance steps).EndedBadly .session ∨
    (new eventBuffer rendererRoom).Took steps fun r s =>
      s = .engineReturns how ∧ r.scopeCancelled = false := by
  obtain ⟨before, s, after, rfl, hpossible, rfl⟩ := hreturned
  by_cases hscope : ((new eventBuffer rendererRoom).advance before).scopeCancelled = true
  · left
    have hinv := advance_invariant (invariant_new eventBuffer rendererRoom) before
    rw [advance_append] at hnot ⊢
    obtain ⟨r', hr'⟩ := Option.isSome_iff_exists.mp hpossible
    have hworks : ((new eventBuffer rendererRoom).advance before).state = .solving ∧
        ((new eventBuffer rendererRoom).advance before).solver = .working := by
      cases takes_of_step? hr' with
      | engineReturns _ hstate hs | enginePanics hstate hs => exact ⟨hstate, hs⟩
    obtain ⟨g, hg⟩ := Option.isSome_iff_exists.mp (hinv.solving hworks.1)
    rw [scopeCancelled, hg] at hscope
    exact (session_endedBadly (cancelled_of_advance hnot) hg hscope hworks.2).advance hinv _
  · exact Or.inr ⟨before, _, after, rfl, hpossible, rfl, Bool.eq_false_iff.mpr hscope⟩

/-- A solve that fails without being cancelled has a task that ended badly by itself. -/
theorem exists_endedBadly (hnot : ((new eventBuffer rendererRoom).advance steps).cancelled =
    false) (hresult : ((new eventBuffer rendererRoom).advance steps).result = some (.error fault))
    (hg : ((new eventBuffer rendererRoom).advance steps).group = some g) :
    ∃ task, ((new eventBuffer rendererRoom).advance steps).EndedBadly task := by
  have hinv := advance_invariant (invariant_new eventBuffer rendererRoom) steps
  have hun := hinv.undisturbed hnot hg
  have hreports := hinv.result _ hresult
  rw [hg] at hreports
  obtain ⟨-, -, hgroup⟩ := TaskGroup.result?_eq_some_iff.mp hreports
  obtain ⟨e, he, hover, hbad⟩ :=
    hun.reported ((TaskGroup.reported_iff_ne_ok hgroup).mpr (by simp))
  cases hended : e.ended with
  | some how =>
    obtain ⟨task, htask⟩ := hinv.task_of_mem hg he
    exact ⟨task, how, by rintro rfl; exact hbad hended, g, e, hg, htask, hover, hended⟩
  | none =>
    -- A body is dropped for the failure of another one.
    obtain ⟨fault, hfirst⟩ :=
      Option.isSome_iff_exists.mp (hun.scope (hun.dropped e he hover hended))
    obtain ⟨task, hfailed⟩ := hinv.failed_of_first hg hfirst
    exact ⟨task, hfailed.endedBadly hinv⟩

end

/-! ### A session that is told to close -/

/-- If the engine has failed and the caller has not cancelled, what is reported is the failure of
the engine or one that the session has had. -/
theorem engineFailure_reported (eventBuffer rendererRoom : Nat) (hne : fault ≠ .cancelled)
    (hreturned : (new eventBuffer rendererRoom).Took steps fun _ s =>
      s = .engineReturns (.failed fault))
    (hnot : ((new eventBuffer rendererRoom).advance steps).cancelled = false)
    {result : Except BuildFault Unit}
    (hresult : ((new eventBuffer rendererRoom).advance steps).result = some result) :
    ∃ reported, result = .error reported ∧ (reported = fault ∨
      ((new eventBuffer rendererRoom).advance steps).Failed .session reported) := by
  have hstart := invariant_new eventBuffer rendererRoom
  have hinv := advance_invariant hstart steps
  have hended := (hinv.solveEnded_iff hresult).mp
    ((engineReturned_iff hstart not_engineReturned_new).mp hreturned)
  have ⟨g, e, hg, he, _, hend⟩ := hended
  have hreports := hinv.result result hresult
  rw [hg] at hreports
  -- Nobody cancelled the scope before, so the engine's failure was stored, or one was before it.
  have hfirst := (hinv.undisturbed hnot hg).first_of_done hreports (List.mem_of_getElem? he)
    (by rw [hend]; simp) (by rw [TaskGroup.Entry.EndedCancelled, hend]; simpa using hne)
  obtain ⟨reported, hstored⟩ := Option.isSome_iff_exists.mp hfirst
  obtain ⟨-, -, hgroup⟩ := TaskGroup.result?_eq_some_iff.mp hreports
  rw [hstored] at hgroup
  refine ⟨reported, hgroup, ?_⟩
  obtain ⟨task, hfailed⟩ := hinv.failed_of_first hg hstored
  -- Of the three tasks only the session and the engine can have failed.
  cases task with
  | session => exact Or.inr hfailed
  | relay => exact absurd (hfailed.endedBadly hinv) (not_endedBadly_relay _ _ steps)
  | solve =>
    left
    rcases hfailed.bodyEnded hinv with hended' | hended'
    · exact TaskEnd.failed.inj (hended'.unique hended)
    · cases hended'.unique hended

/-- The failure of the engine is reported if the session closes as it should. -/
theorem engineFailure_reported_of_closed (eventBuffer rendererRoom : Nat)
    (hne : fault ≠ .cancelled) (hreturned : (new eventBuffer rendererRoom).Took steps fun _ s =>
      s = .engineReturns (.failed fault))
    (hnot : ((new eventBuffer rendererRoom).advance steps).cancelled = false)
    (hclosed : ∀ other, ¬ ((new eventBuffer rendererRoom).advance steps).Failed .session other)
    {result : Except BuildFault Unit}
    (hresult : ((new eventBuffer rendererRoom).advance steps).result = some result) :
    result = .error fault := by
  obtain ⟨reported, rfl, rfl | hfailed⟩ :=
    engineFailure_reported eventBuffer rendererRoom hne hreturned hnot hresult
  · rfl
  · exact absurd hfailed (hclosed reported)

/-- The engine fails while the session is open. The session is told to close, fails to, and is
heard before the failure of the engine is. -/
def closingFailure (fault closing : BuildFault) : List Step :=
  [.openSession (.ok ()), .engineReturns (.failed fault), .closeSession,
    .sessionReturns (.failed closing), .record .session, .record .session, .record .session,
    .endSolve, .record .solve, .drop .relay, .record .relay, .join .session, .join .solve,
    .join .relay, .finish]

/-- Whatever the engine fails with, the failure of a session that fails to close can be reported
in place of it. -/
theorem closingFailure_reported (eventBuffer rendererRoom : Nat) (fault : BuildFault)
    {closing : BuildFault} (hne : closing ≠ .cancelled) :
    ((new eventBuffer rendererRoom).advance (closingFailure fault closing)).result =
      some (.error closing) := by
  have hgenuine : closing.isCancelled = false := by
    rw [Bool.eq_false_iff]
    exact fun hc => hne (BuildFault.isCancelled_iff.mp hc)
  simp [closingFailure, advance, next, new, step?, groupStep?, relayStep?, TaskGroup.step?,
    TaskGroup.ofNames, Role.all, Role.index, Role.name, TaskGroup.setTask, TaskGroup.phaseAfter,
    TaskGroup.phaseOf, TaskGroup.Recording.step, sessionEnd, hgenuine, queueClosed,
      Progress.Relay.step?,
    Progress.Relay.new, TaskGroup.result?, conclude]

end ImageBuild.SolveRun
