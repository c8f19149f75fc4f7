import ImageBuild.Proofs.Progress.Relay
import ImageBuild.Proofs.TaskGroup.FirstFailure
import ImageBuild.Solve.Run

/-!
# `ImageBuild.Proofs.Solve.Steps`: what a step of a solve can do

A solve is made of a group of three tasks, of a relay and of a little state of its own. `Takes` is
the step function as a relation, with one rule for each kind of step. What a step does to the
group is a step of the group (`Takes.group`), and what it does to the relay is a step of the relay
(`Takes.relay`), so what holds of every group and of every relay holds of those of a solve.

`Invariant` says how the three fit together: which phase of the solve task goes with which phase
of its entry in the group, when the relay may be gone, and what the published state says. It holds
after every run (`advance_invariant`).
-/

set_option autoImplicit false

namespace ImageBuild.SolveRun

open Progress (Relay RelayStep StatusResponse)

variable {r r' : SolveRun} {s : Step}

/-- The solve after a step, if that is possible. -/
def next (r : SolveRun) (s : Step) : SolveRun := (r.step? s).getD r

/-- Takes those of some steps that are possible when their turn comes. -/
def advance (r : SolveRun) (steps : List Step) : SolveRun := steps.foldl next r

/-- A run in two parts. -/
theorem advance_append (r : SolveRun) (before after : List Step) :
    r.advance (before ++ after) = (r.advance before).advance after :=
  List.foldl_append

/-! ### The steps that are possible -/

/-- What the relay and the renderer do that concerns nobody else. -/
def ConcernsRelayOnly : RelayStep → Prop
  | .take | .forward | .detach | .deliver | .hangUp => True
  | .send _ | .close | .finish | .drop => False

/-- A step of a solve, with one rule for each kind. -/
inductive Takes (r : SolveRun) : Step → SolveRun → Prop
  | cancelEarly : r.cancelled = false → r.result = none → r.group = none →
    Takes r .cancel { r with cancelled := true }
  | cancel {g g' : TaskGroup} : r.cancelled = false → r.result = none → r.group = some g →
    g.Takes .cancel g' → Takes r .cancel { r with cancelled := true, group := some g' }
  | opens : r.state = .sessionStarting →
    Takes r (.openSession (.ok ())) { r with
      group := some (.ofNames (Role.all.map (·.name)) r.cancelled), state := .solving }
  | failsToOpen (fault : BuildFault) : r.state = .sessionStarting →
    Takes r (.openSession (.error fault)) (r.conclude (.error fault))
  | abandon : r.state = .sessionStarting → r.cancelled = true →
    Takes r .abandon (r.conclude (.error .cancelled))
  | sessionReturns (how : TaskEnd) {g g' : TaskGroup} : r.group = some g →
    g.Takes (.finish Role.session.index (r.sessionEnd how)) g' →
    Takes r (.sessionReturns how) { r with group := some g' }
  | send {b : StatusResponse} {l : Relay} : r.state = .solving → r.solver = .working →
    r.relay.Takes (.send b) l → Takes r (.send b) { r with relay := l }
  | closeQueue {l : Relay} : r.state = .solving → r.solver = .working → r.relay.Takes .close l →
    Takes r .closeQueue { r with relay := l }
  | engineReturns {how : TaskEnd} : how ≠ .panicked → r.state = .solving → r.solver = .working →
    Takes r (.engineReturns how) { r.queueClosed with solver := .returned how }
  | enginePanics {g g' : TaskGroup} : r.state = .solving → r.solver = .working →
    r.group = some g → g.Takes (.finish Role.solve.index .panicked) g' →
    Takes r (.engineReturns .panicked) { r.queueClosed with
      solver := .finished, group := some g' }
  | closeSession {how : TaskEnd} : r.solver = .returned how →
    Takes r .closeSession { r with solver := .closing how, closed := true }
  | endSolve {how : TaskEnd} {g g' : TaskGroup} : r.solver = .closing how → r.group = some g →
    g.Takes (.finish Role.solve.index how) g' →
    Takes r .endSolve { r with solver := .finished, group := some g' }
  | relay {t : RelayStep} {l : Relay} : ConcernsRelayOnly t → r.relay.Takes t l →
    Takes r (.relay t) { r with relay := l }
  | endRelay {l : Relay} {g g' : TaskGroup} : r.state = .solving → r.relay.Takes .finish l →
    r.group = some g → g.Takes (.finish Role.relay.index .ok) g' →
    Takes r (.relay .finish) { r with relay := l, group := some g' }
  | dropSession {g g' : TaskGroup} : r.group = some g → g.Takes (.drop Role.session.index) g' →
    Takes r (.drop .session) { r with group := some g' }
  | dropSolve {g g' : TaskGroup} : r.solver = .working → r.group = some g →
    g.Takes (.drop Role.solve.index) g' →
    Takes r (.drop .solve) { r.queueClosed with group := some g', solver := .finished }
  | dropRelay {l : Relay} {g g' : TaskGroup} : r.group = some g →
    g.Takes (.drop Role.relay.index) g' → r.relay.Takes .drop l →
    Takes r (.drop .relay) { r with group := some g', relay := l }
  | record (task : Role) {g g' : TaskGroup} : r.group = some g → g.Takes (.record task.index) g' →
    Takes r (.record task) { r with group := some g' }
  | join (task : Role) {g g' : TaskGroup} : r.group = some g → g.Takes (.join task.index) g' →
    Takes r (.join task) { r with group := some g' }
  | recordPanic {g g' : TaskGroup} : r.group = some g → g.Takes .recordPanic g' →
    Takes r .recordPanic { r with group := some g' }
  | finish {g : TaskGroup} {result : Except BuildFault Unit} : r.result = none →
    r.group = some g → g.result? = some result → Takes r .finish (r.conclude result)

/-- A step of the group is one of its own rules, and it changes nothing else. -/
theorem groupStep?_eq_some {t : TaskGroup.Step} (h : r.groupStep? t = some r') :
    ∃ g g', r.group = some g ∧ g.Takes t g' ∧ r' = { r with group := some g' } := by
  obtain ⟨g, hg, h⟩ := Option.bind_eq_some_iff.mp h
  obtain ⟨g', hg', h⟩ := Option.bind_eq_some_iff.mp h
  cases h
  exact ⟨g, g', hg, TaskGroup.takes_iff.mpr hg', rfl⟩

/-- A step of the relay is one of its own rules, and it changes nothing else. -/
theorem relayStep?_eq_some {t : RelayStep} (h : r.relayStep? t = some r') :
    ∃ l, r.relay.Takes t l ∧ r' = { r with relay := l } := by
  obtain ⟨l, hl, h⟩ := Option.bind_eq_some_iff.mp h
  cases h
  exact ⟨l, Relay.takes_iff.mpr hl, rfl⟩

/-! ### Each step that is possible is one of the rules -/

section
variable {t : RelayStep} {task : Role}

/-- The caller cancels once, before the solve is over. -/
theorem takes_of_cancel (h : r.step? .cancel = some r') : Takes r .cancel r' := by
  rw [step?] at h
  obtain ⟨hopen, h⟩ := Option.ite_none_left_eq_some.mp h
  have hnot : r.cancelled = false ∧ r.result = none := by simpa using hopen
  dsimp only at h
  split at h
  · next g hg =>
    obtain ⟨g₁, g', hg₁, htakes, rfl⟩ := groupStep?_eq_some h
    exact .cancel hnot.1 hnot.2 hg₁ htakes
  · next hg =>
    cases h
    exact .cancelEarly hnot.1 hnot.2 hg

/-- The session is opened, or it fails to. -/
theorem takes_of_openSession {how : Except BuildFault Unit}
    (h : r.step? (.openSession how) = some r') : Takes r (.openSession how) r' := by
  cases how with
  | ok =>
    obtain ⟨hstate, h⟩ := Option.ite_none_right_eq_some.mp h
    cases h
    exact .opens hstate
  | error fault =>
    obtain ⟨hstate, h⟩ := Option.ite_none_right_eq_some.mp h
    cases h
    exact .failsToOpen fault hstate

/-- A caller that has cancelled does not wait for the session. -/
theorem takes_of_abandon (h : r.step? .abandon = some r') : Takes r .abandon r' := by
  obtain ⟨hguard, h⟩ := Option.ite_none_right_eq_some.mp h
  have habandoned : r.state = .sessionStarting ∧ r.cancelled = true := by simpa using hguard
  cases h
  exact .abandon habandoned.1 habandoned.2

/-- The engine sends and closes its queue while the solve goes on and it works. -/
theorem working_of_guard
    (h : (decide (r.state = .solving) && decide (r.solver = .working)) = true) :
    r.state = .solving ∧ r.solver = .working := by
  simpa using h

/-- The engine sends while the solve goes on and it works. -/
theorem takes_of_send {b : StatusResponse} (h : r.step? (.send b) = some r') :
    Takes r (.send b) r' := by
  obtain ⟨hguard, h⟩ := Option.ite_none_right_eq_some.mp h
  obtain ⟨hstate, hworking⟩ := working_of_guard hguard
  obtain ⟨l, htakes, rfl⟩ := relayStep?_eq_some h
  exact .send hstate hworking htakes

/-- It closes its queue then, too. -/
theorem takes_of_closeQueue (h : r.step? .closeQueue = some r') : Takes r .closeQueue r' := by
  obtain ⟨hguard, h⟩ := Option.ite_none_right_eq_some.mp h
  obtain ⟨hstate, hworking⟩ := working_of_guard hguard
  obtain ⟨l, htakes, rfl⟩ := relayStep?_eq_some h
  exact .closeQueue hstate hworking htakes

/-- An engine that panics ends the solve task at once. Any other has the session closed first. -/
theorem takes_of_engineReturns {how : TaskEnd} (h : r.step? (.engineReturns how) = some r') :
    Takes r (.engineReturns how) r' := by
  obtain ⟨hguard, h⟩ := Option.ite_none_right_eq_some.mp h
  obtain ⟨hstate, hworking⟩ := working_of_guard hguard
  cases how with
  | panicked =>
    obtain ⟨g, g', hg, htakes, rfl⟩ := groupStep?_eq_some h
    exact .enginePanics hstate hworking hg htakes
  | ok => cases h; exact .engineReturns (by simp) hstate hworking
  | failed fault => cases h; exact .engineReturns (by simp) hstate hworking

/-- The solve task tells the session to close once its engine has returned. -/
theorem takes_of_closeSession (h : r.step? .closeSession = some r') :
    Takes r .closeSession r' := by
  rw [step?] at h
  cases hsolver : r.solver with
  | returned how =>
    rw [hsolver] at h
    cases h
    exact .closeSession hsolver
  | working | closing | finished => rw [hsolver] at h; cases h

/-- The solve task ends once it has told the session to close. -/
theorem takes_of_endSolve (h : r.step? .endSolve = some r') : Takes r .endSolve r' := by
  rw [step?] at h
  cases hsolver : r.solver with
  | closing how =>
    rw [hsolver] at h
    obtain ⟨g, g', hg, htakes, rfl⟩ := groupStep?_eq_some h
    exact .endSolve hsolver hg htakes
  | working | returned | finished => rw [hsolver] at h; cases h

/-- The end of the relay is the end of its task. Its other steps concern nobody else. -/
theorem takes_of_relay (h : r.step? (.relay t) = some r') : Takes r (.relay t) r' := by
  have hfree : ConcernsRelayOnly t → r.relayStep? t = some r' → Takes r (.relay t) r' := by
    intro hfree h
    obtain ⟨l, htakes, rfl⟩ := relayStep?_eq_some h
    exact .relay hfree htakes
  cases t with
  | send | close | drop => cases h
  | finish =>
    obtain ⟨hstate, h⟩ := Option.ite_none_right_eq_some.mp h
    obtain ⟨r₁, h₁, h⟩ := Option.bind_eq_some_iff.mp h
    obtain ⟨l, hfinish, rfl⟩ := relayStep?_eq_some h₁
    obtain ⟨g, g', hg, htakes, rfl⟩ := groupStep?_eq_some h
    exact .endRelay hstate hfinish hg htakes
  | take | forward | detach | deliver | hangUp => exact hfree trivial h

/-- A task that is dropped drops what it owns. -/
theorem takes_of_drop (h : r.step? (.drop task) = some r') : Takes r (.drop task) r' := by
  cases task with
  | session =>
    obtain ⟨g, g', hg, htakes, rfl⟩ := groupStep?_eq_some h
    exact .dropSession hg htakes
  | solve =>
    obtain ⟨hworking, h⟩ := Option.ite_none_right_eq_some.mp h
    obtain ⟨r₁, h₁, h⟩ := Option.bind_eq_some_iff.mp h
    obtain ⟨g, g', hg, htakes, rfl⟩ := groupStep?_eq_some h₁
    cases h
    exact .dropSolve hworking hg htakes
  | relay =>
    obtain ⟨r₁, h₁, h⟩ := Option.bind_eq_some_iff.mp h
    obtain ⟨g, g', hg, htakes, rfl⟩ := groupStep?_eq_some h₁
    obtain ⟨l, hdrop, rfl⟩ := relayStep?_eq_some h
    exact .dropRelay hg htakes hdrop

/-- The solve is over when its group has a result. -/
theorem takes_of_finish (h : r.step? .finish = some r') : Takes r .finish r' := by
  obtain ⟨hopen, h⟩ := Option.ite_none_left_eq_some.mp h
  obtain ⟨g, hg, h⟩ := Option.bind_eq_some_iff.mp h
  obtain ⟨result, hend, h⟩ := Option.bind_eq_some_iff.mp h
  cases h
  exact .finish (by simpa using hopen) hg hend

end

/-- Every step that is possible is one of the rules. -/
theorem takes_of_step? (h : r.step? s = some r') : Takes r s r' := by
  cases s with
  | cancel => exact takes_of_cancel h
  | openSession how => exact takes_of_openSession h
  | abandon => exact takes_of_abandon h
  | send b => exact takes_of_send h
  | closeQueue => exact takes_of_closeQueue h
  | engineReturns how => exact takes_of_engineReturns h
  | closeSession => exact takes_of_closeSession h
  | endSolve => exact takes_of_endSolve h
  | relay t => exact takes_of_relay h
  | drop task => exact takes_of_drop h
  | finish => exact takes_of_finish h
  -- These are steps of the group and nothing else.
  | sessionReturns how =>
    obtain ⟨g, g', hg, htakes, rfl⟩ := groupStep?_eq_some h
    exact .sessionReturns how hg htakes
  | record task =>
    obtain ⟨g, g', hg, htakes, rfl⟩ := groupStep?_eq_some h
    exact .record task hg htakes
  | join task =>
    obtain ⟨g, g', hg, htakes, rfl⟩ := groupStep?_eq_some h
    exact .join task hg htakes
  | recordPanic =>
    obtain ⟨g, g', hg, htakes, rfl⟩ := groupStep?_eq_some h
    exact .recordPanic hg htakes

/-- A step is one of the rules, or it is not possible and nothing happens. -/
theorem takes_or_stays (r : SolveRun) (s : Step) :
    Takes r s (r.next s) ∨ r.step? s = none ∧ r.next s = r := by
  unfold next
  cases h : r.step? s with
  | some r' => exact Or.inl (takes_of_step? h)
  | none => exact Or.inr ⟨rfl, rfl⟩

/-- What every step keeps holds after every run. -/
theorem advance_preserves {P : SolveRun → Prop} (hstep : ∀ {r s r'}, Takes r s r' → P r → P r')
    (h : P r) (steps : List Step) : P (r.advance steps) := by
  induction steps generalizing r with
  | nil => exact h
  | cons s rest ih =>
    refine ih ?_
    rcases takes_or_stays r s with htakes | ⟨-, hstays⟩
    · exact hstep htakes h
    · rw [hstays]; exact h

/-! ### The group and the relay of a solve -/

/-- The step that a step of the solve is for its group. -/
inductive IsGroupStep (r : SolveRun) : Step → TaskGroup.Step → Prop
  | cancel : IsGroupStep r .cancel .cancel
  | sessionReturns (how : TaskEnd) :
    IsGroupStep r (.sessionReturns how) (.finish Role.session.index (r.sessionEnd how))
  | enginePanics : IsGroupStep r (.engineReturns .panicked) (.finish Role.solve.index .panicked)
  | endSolve {how : TaskEnd} : r.solver = .closing how →
    IsGroupStep r .endSolve (.finish Role.solve.index how)
  | endRelay : IsGroupStep r (.relay .finish) (.finish Role.relay.index .ok)
  | drop (task : Role) : IsGroupStep r (.drop task) (.drop task.index)
  | record (task : Role) : IsGroupStep r (.record task) (.record task.index)
  | join (task : Role) : IsGroupStep r (.join task) (.join task.index)
  | recordPanic : IsGroupStep r .recordPanic .recordPanic

/-- The three tasks have places of their own. -/
theorem Role.index_injective {task task' : Role} (h : task.index = task'.index) :
    task = task' := by
  cases task <;> cases task' <;> simp_all [index]

variable {t : TaskGroup.Step} {how : TaskEnd}

/-- The body of the session task ends when what kept the session open returns. -/
theorem IsGroupStep.finish_session (h : r.IsGroupStep s t)
    (ht : t = .finish Role.session.index how) :
    ∃ returned, s = .sessionReturns returned ∧ r.sessionEnd returned = how := by
  cases h with
  | sessionReturns returned => cases ht; exact ⟨returned, rfl, rfl⟩
  | cancel | enginePanics | endSolve | endRelay | drop | record | join | recordPanic => cases ht

/-- The body of the solve task ends when the engine panics, or after the session was told to
close. -/
theorem IsGroupStep.finish_solve (h : r.IsGroupStep s t) (ht : t = .finish Role.solve.index how) :
    s = .engineReturns .panicked ∧ how = .panicked ∨ s = .endSolve ∧ r.solver = .closing how := by
  cases h with
  | enginePanics => cases ht; exact Or.inl ⟨rfl, rfl⟩
  | endSolve hsolver => cases ht; exact Or.inr ⟨rfl, hsolver⟩
  | cancel | sessionReturns | endRelay | drop | record | join | recordPanic => cases ht

/-- The body of the relay task ends well. -/
theorem IsGroupStep.finish_relay (h : r.IsGroupStep s t) (ht : t = .finish Role.relay.index how) :
    s = .relay .finish ∧ how = .ok := by
  cases h with
  | endRelay => cases ht; exact ⟨rfl, rfl⟩
  | cancel | sessionReturns | enginePanics | endSolve | drop | record | join | recordPanic =>
    cases ht

/-- A task is dropped by its own step only. -/
theorem IsGroupStep.drop_task {task : Role} (h : r.IsGroupStep s t) (ht : t = .drop task.index) :
    s = .drop task := by
  cases h with
  | drop task' =>
    have hindex : task'.index = task.index := by simpa using ht
    rw [Role.index_injective hindex]
  | cancel | sessionReturns | enginePanics | endSolve | endRelay | record | join | recordPanic =>
    cases ht

/-- The group is cancelled by the caller only. -/
theorem IsGroupStep.of_cancel (h : r.IsGroupStep s t) (ht : t = .cancel) : s = .cancel := by
  cases h with
  | cancel => rfl
  | sessionReturns | enginePanics | endSolve | endRelay | drop | record | join | recordPanic =>
    cases ht

/-- What a step does to the tasks, once they are started, is a step of their group or nothing. -/
theorem Takes.group (h : Takes r s r') (hstart : r.state = .sessionStarting → r.group = none)
    {g : TaskGroup} (hg : r.group = some g) :
    ∃ g', r'.group = some g' ∧ (g' = g ∨ ∃ t, r.IsGroupStep s t ∧ g.Takes t g') := by
  have hmoves : ∀ {t : TaskGroup.Step} {g₁ g' : TaskGroup}, r.group = some g₁ →
      r.IsGroupStep s t → g₁.Takes t g' →
      ∃ g'', some g' = some g'' ∧ (g'' = g ∨ ∃ t, r.IsGroupStep s t ∧ g.Takes t g'') := by
    intro t g₁ g' hg₁ ht htakes
    obtain rfl := Option.some.inj (hg.symm.trans hg₁)
    exact ⟨g', rfl, Or.inr ⟨t, ht, htakes⟩⟩
  -- Each step that has a part for the group names it, so the cases are read off the rules.
  cases h with
  | cancelEarly _ _ hnone => rw [hnone] at hg; cases hg
  | opens hstate => rw [hstart hstate] at hg; cases hg
  | failsToOpen | abandon | send | closeQueue | engineReturns | closeSession | relay | finish =>
    exact ⟨g, hg, Or.inl rfl⟩
  | cancel _ _ hg₁ htakes => exact hmoves hg₁ .cancel htakes
  | sessionReturns how hg₁ htakes => exact hmoves hg₁ (.sessionReturns how) htakes
  | enginePanics _ _ hg₁ htakes => exact hmoves hg₁ .enginePanics htakes
  | endSolve hsolver hg₁ htakes => exact hmoves hg₁ (.endSolve hsolver) htakes
  | endRelay _ _ hg₁ htakes => exact hmoves hg₁ .endRelay htakes
  | dropSession hg₁ htakes => exact hmoves hg₁ (.drop .session) htakes
  | dropSolve _ hg₁ htakes => exact hmoves hg₁ (.drop .solve) htakes
  | dropRelay hg₁ htakes => exact hmoves hg₁ (.drop .relay) htakes
  | record task hg₁ htakes => exact hmoves hg₁ (.record task) htakes
  | join task hg₁ htakes => exact hmoves hg₁ (.join task) htakes
  | recordPanic hg₁ htakes => exact hmoves hg₁ .recordPanic htakes

/-- The tasks are started in one step only. -/
theorem Takes.group_of_none (h : Takes r s r') (hg : r.group = none) :
    r'.group = none ∨ r.state = .sessionStarting ∧ r'.state = .solving ∧
      r'.group = some (.ofNames (Role.all.map (·.name)) r.cancelled) := by
  cases h with
  | opens hstate => exact Or.inr ⟨hstate, rfl, rfl⟩
  | cancelEarly | failsToOpen | abandon | send | closeQueue | engineReturns | closeSession | relay
  | finish => exact Or.inl hg
  | cancel _ _ hg₁ | sessionReturns _ hg₁ | enginePanics _ _ hg₁ | dropSession hg₁
  | dropSolve _ hg₁ | dropRelay hg₁ | record _ hg₁ | join _ hg₁ | recordPanic hg₁
  | endRelay _ _ hg₁ | endSolve _ hg₁ => rw [hg] at hg₁; cases hg₁

/-- What a step does to the relay is a step of the relay or nothing. The relay is dropped only in
a cancelled scope, and it stops only once it was started. -/
theorem Takes.relay_cases (h : Takes r s r') :
    r'.relay = r.relay ∨ ∃ t, r.relay.Takes t r'.relay ∧ (t = .drop → r.scopeCancelled = true) ∧
      (t = .finish ∨ t = .drop → r'.group.isSome = true) := by
  cases h with
  | cancelEarly | cancel | opens | failsToOpen | abandon | sessionReturns | closeSession
    | endSolve
  | dropSession | record | join | recordPanic | finish => exact Or.inl rfl
  | send _ _ htakes => exact Or.inr ⟨_, htakes, by simp, by simp⟩
  | closeQueue _ _ htakes => exact Or.inr ⟨.close, htakes, by simp, by simp⟩
  | engineReturns | enginePanics | dropSolve =>
    -- The engine may have closed its queue before.
    exact (Relay.closed_or_takes r.relay).imp_right fun htakes =>
      ⟨.close, htakes, by simp, by simp⟩
  | @relay t _ hfree htakes =>
    refine Or.inr ⟨t, htakes, ?_, ?_⟩
    · rintro rfl; exact hfree.elim
    · rintro (rfl | rfl) <;> exact hfree.elim
  | endRelay _ htakes => exact Or.inr ⟨.finish, htakes, by simp, fun _ => rfl⟩
  | dropRelay hg htakes hdrop =>
    refine Or.inr ⟨.drop, hdrop, fun _ => ?_, fun _ => rfl⟩
    rw [scopeCancelled, hg]
    cases htakes with
    | drop _ hscope => exact hscope

/-- What a step does to the state that the solve publishes. -/
theorem Takes.state_cases (h : Takes r s r') :
    r'.state = r.state ∧ r'.result = r.result ∨
    r.state = .sessionStarting ∧ r'.state = .solving ∧ r'.result = r.result ∧
    r'.group.isSome = true ∨
    ∃ result, r' = r.conclude result ∧
      ((∃ fault, r.state = .sessionStarting ∧ result = .error fault) ∨
        r.result = none ∧ ∃ g, r.group = some g ∧ g.result? = some result) := by
  cases h with
  | opens hstate => exact Or.inr (Or.inl ⟨hstate, rfl, rfl, rfl⟩)
  | failsToOpen fault hstate => exact Or.inr (Or.inr ⟨_, rfl, Or.inl ⟨fault, hstate, rfl⟩⟩)
  | abandon hstate => exact Or.inr (Or.inr ⟨_, rfl, Or.inl ⟨.cancelled, hstate, rfl⟩⟩)
  | finish hnone hg hresult => exact Or.inr (Or.inr ⟨_, rfl, Or.inr ⟨hnone, _, hg, hresult⟩⟩)
  | cancelEarly | cancel | sessionReturns | send | closeQueue | engineReturns | enginePanics
  | closeSession | endSolve | relay | endRelay | dropSession | dropSolve | dropRelay
    | record | join
  | recordPanic => exact Or.inl ⟨rfl, rfl⟩

/-! ### How the group, the relay and the state fit together -/

/-- What holds of a solve at all times. -/
structure Invariant (r : SolveRun) : Prop where
  /-- The tasks are started when the session is open. -/
  starting : r.state = .sessionStarting → r.group = none
  solving : r.state = .solving → r.group.isSome = true
  /-- The tasks are those of a group that has gone on in some way, and nobody but the caller
  cancels it from outside. -/
  group : ∀ g, r.group = some g → ∃ cancelled steps,
    g = (TaskGroup.ofNames (Role.all.map (·.name)) cancelled).advance steps ∧
      (r.cancelled = false → cancelled = false ∧ .cancel ∉ steps)
  /-- Until the solve task has ended or is dropped, its body runs. -/
  solver : match r.group with
    | none => r.solver = .working
    | some g => r.solver ≠ .finished →
      ∃ e, g.tasks[Role.solve.index]? = some e ∧ e.phase = .running
  /-- Only an engine that works may send. -/
  engine : r.relay.engineOpen = true → r.solver = .working
  relay : r.relay.Faithful
  /-- The relay stops only once it was started. -/
  stopped : r.relay.phase = .stopped → r.group.isSome = true
  /-- As long as the engine may send, its queue is there or the scope is cancelled. -/
  receiver : r.relay.phase = .stopped → r.relay.engineOpen = false ∨ r.scopeCancelled = true
  /-- As long as the solve is not over, it does not say so. -/
  running : r.result = none → r.state = .sessionStarting ∨ r.state = .solving
  /-- When the solve is over, the state says how. -/
  state : ∀ result, r.result = some result → r.state = .ofResult result
  /-- What the solve ends with is what the group reports, if the tasks were started. -/
  result : ∀ result, r.result = some result →
    match r.group with
    | none => ∃ fault, result = .error fault
    | some g => g.result? = some result

/-- The invariant holds at the start. -/
theorem invariant_new (eventBuffer rendererRoom : Nat) :
    (new eventBuffer rendererRoom).Invariant where
  starting _ := rfl
  solving h := by cases h
  group g h := by cases h
  solver := rfl
  engine _ := rfl
  relay := Relay.faithful_new eventBuffer rendererRoom
  stopped h := by cases h
  receiver h := by cases h
  running _ := Or.inl rfl
  state result h := by cases h
  result result h := by cases h

/-- A result makes no state of a solve that goes on. -/
theorem ofResult_ne (result : Except BuildFault Unit) :
    SolveState.ofResult result ≠ .sessionStarting ∧ SolveState.ofResult result ≠ .solving := by
  have hterminal := SolveState.isTerminal_ofResult result
  constructor <;> intro h <;> rw [h] at hterminal <;> cases hterminal

/-- What a step does to the tasks, once they are started. -/
theorem Takes.group_of_some (h : Takes r s r') (hinv : r.Invariant) {g : TaskGroup}
    (hg : r.group = some g) :
    ∃ g', r'.group = some g' ∧ (g' = g ∨ ∃ t, r.IsGroupStep s t ∧ g.Takes t g') :=
  h.group hinv.starting hg

/-- Until the session is open no tasks are started. -/
theorem Takes.starting (h : Takes r s r') (hinv : r.Invariant)
    (hstate : r'.state = .sessionStarting) : r'.group = none := by
  rcases h.state_cases with ⟨hsame, -⟩ | ⟨-, hsolving, -⟩ | ⟨result, rfl, -⟩
  · rcases h.group_of_none (hinv.starting (hsame ▸ hstate)) with hnone | ⟨-, hsolving, -⟩
    · exact hnone
    · rw [hsolving] at hstate; cases hstate
  · rw [hsolving] at hstate; cases hstate
  · exact absurd hstate (ofResult_ne result).1

/-- Tasks that were started stay. -/
theorem Takes.group_isSome (h : Takes r s r') (hinv : r.Invariant)
    (hsome : r.group.isSome = true) :
    r'.group.isSome = true := by
  obtain ⟨g, hg⟩ := Option.isSome_iff_exists.mp hsome
  obtain ⟨g', hg', -⟩ := h.group_of_some hinv hg
  rw [hg']
  rfl

/-- A solve goes on with its tasks. -/
theorem Takes.solving (h : Takes r s r') (hinv : r.Invariant) (hstate : r'.state = .solving) :
    r'.group.isSome = true := by
  rcases h.state_cases with ⟨hsame, -⟩ | ⟨-, -, -, hsome⟩ | ⟨result, rfl, -⟩
  · exact h.group_isSome hinv (hinv.solving (hsame ▸ hstate))
  · exact hsome
  · exact absurd hstate (ofResult_ne result).2

/-- A cancelling is not taken back. -/
theorem Takes.cancelled (h : Takes r s r') (hcancelled : r.cancelled = true) :
    r'.cancelled = true := by
  cases h with
  | cancelEarly | cancel => rfl
  | opens | failsToOpen | abandon | sessionReturns | send | closeQueue | engineReturns
    | enginePanics
  | closeSession | endSolve | relay | endRelay | dropSession | dropSolve | dropRelay
    | record | join
  | recordPanic | finish => exact hcancelled

/-- The group is one that has gone on by its own steps. -/
theorem Takes.group_reached (h : Takes r s r') (hinv : r.Invariant) (g' : TaskGroup)
    (hg' : r'.group = some g') : ∃ cancelled steps,
    g' = (TaskGroup.ofNames (Role.all.map (·.name)) cancelled).advance steps ∧
      (r'.cancelled = false → cancelled = false ∧ .cancel ∉ steps) := by
  have hbefore : r'.cancelled = false → r.cancelled = false := by
    intro hnot
    rw [Bool.eq_false_iff]
    intro hcancelled
    rw [h.cancelled hcancelled] at hnot
    cases hnot
  cases hg : r.group with
  | none =>
    rcases h.group_of_none hg with hnone | ⟨-, -, hstarted⟩
    · rw [hnone] at hg'; cases hg'
    · rw [hstarted] at hg'
      cases hg'
      exact ⟨r.cancelled, [], rfl, fun hnot => ⟨hbefore hnot, List.not_mem_nil⟩⟩
  | some g =>
    obtain ⟨cancelled, steps, rfl, houtside⟩ := hinv.group g hg
    obtain ⟨g'', hg'', hmoved⟩ := h.group_of_some hinv hg
    obtain rfl := Option.some.inj (hg''.symm.trans hg')
    rcases hmoved with rfl | ⟨t, ht, htakes⟩
    · exact ⟨cancelled, steps, rfl, fun hnot => houtside (hbefore hnot)⟩
    · refine ⟨cancelled, steps ++ [t], ?_, fun hnot => ⟨(houtside (hbefore hnot)).1, ?_⟩⟩
      · exact htakes.advance_concat.symm
      · -- A cancellation of the group is one by the caller.
        rw [List.mem_append, List.mem_singleton, not_or]
        refine ⟨(houtside (hbefore hnot)).2, ?_⟩
        rintro rfl
        obtain rfl := ht.of_cancel rfl
        cases h with
        | cancelEarly | cancel => cases hnot

/-- What a step does to the solve task. -/
theorem Takes.solver_cases (h : Takes r s r') :
    r'.solver = r.solver ∨
    (∃ how, s = .engineReturns how ∧ r.solver = .working ∧ r'.solver = .returned how) ∨
    (∃ how, s = .closeSession ∧ r.solver = .returned how ∧ r'.solver = .closing how) ∨
    (∃ how g', s = .endSolve ∧ r.solver = .closing how ∧ r'.solver = .finished ∧
      r'.group = some g' ∧ ∃ g : TaskGroup, g.Takes (.finish Role.solve.index how) g') ∨
    r.solver = .working ∧ r'.solver = .finished := by
  cases h with
  | engineReturns _ _ hs => exact Or.inr (Or.inl ⟨_, rfl, hs, rfl⟩)
  | closeSession hs => exact Or.inr (Or.inr (Or.inl ⟨_, rfl, hs, rfl⟩))
  | endSolve hs _ hfinish =>
    exact Or.inr (Or.inr (Or.inr (Or.inl ⟨_, _, rfl, hs, rfl, rfl, _, hfinish⟩)))
  | enginePanics _ hs | dropSolve hs => exact Or.inr (Or.inr (Or.inr (Or.inr ⟨hs, rfl⟩)))
  | cancelEarly | cancel | opens | failsToOpen | abandon | sessionReturns | send
    | closeQueue | relay
  | endRelay | dropSession | dropRelay | record | join | recordPanic | finish => exact Or.inl rfl

/-- A solve task that has ended has ended for good. -/
theorem Takes.solver_finished (h : Takes r s r') (hsolver : r.solver = .finished) :
    r'.solver = .finished := by
  rcases h.solver_cases with hsame | ⟨_, -, hs, -⟩ | ⟨_, -, hs, -⟩ | ⟨_, _, -, hs, -⟩ | ⟨hs, -⟩
  · exact hsame.trans hsolver
  all_goals rw [hsolver] at hs; cases hs

/-- The phase of the solve task goes with its entry in the group. -/
theorem Takes.solver_fits (h : Takes r s r') (hinv : r.Invariant) :
    match r'.group with
    | none => r'.solver = .working
    | some g => r'.solver ≠ .finished →
      ∃ e, g.tasks[Role.solve.index]? = some e ∧ e.phase = .running := by
  have hbefore := hinv.solver
  cases hg : r.group with
  | none =>
    rw [hg] at hbefore
    have hidle : r.state ≠ .solving := by
      intro hstate
      have hsome := hinv.solving hstate
      rw [hg] at hsome
      cases hsome
    cases h with
    | opens => exact fun _ => ⟨_, rfl, rfl⟩
    | cancelEarly | failsToOpen | abandon | relay | finish =>
      dsimp only [conclude]
      rw [hg]
      exact hbefore
    | closeSession hs | endSolve hs => rw [hbefore] at hs; cases hs
    | send hs | closeQueue hs | engineReturns _ hs | enginePanics hs | endRelay hs =>
      exact absurd hs hidle
    | cancel _ _ hg₁ | sessionReturns _ hg₁ | dropSession hg₁ | dropSolve _ hg₁ | dropRelay hg₁
    | record _ hg₁ | join _ hg₁ | recordPanic hg₁ => rw [hg] at hg₁; cases hg₁
  | some g =>
    rw [hg] at hbefore
    obtain ⟨g', hg', hmoved⟩ := h.group_of_some hinv hg
    rw [hg']
    intro hsolver
    obtain ⟨e, he, hrunning⟩ := hbefore fun hfinished => hsolver (h.solver_finished hfinished)
    rcases hmoved with rfl | ⟨t, ht, htakes⟩
    · exact ⟨e, he, hrunning⟩
    · -- A step that ends the body of the solve task also sets its phase to the last one.
      rcases htakes.task he with he' | ⟨how, hfinish, -⟩ | ⟨hdrop, -⟩ | ⟨-, hover, -⟩
      · exact ⟨e, he', hrunning⟩
      · rcases ht.finish_solve hfinish with ⟨rfl, -⟩ | ⟨rfl, -⟩
        · cases h with
          | enginePanics => exact absurd rfl hsolver
          | engineReturns hne => exact absurd rfl hne
        · cases h with
          | endSolve => exact absurd rfl hsolver
      · obtain rfl := ht.drop_task hdrop
        cases h with
        | dropSolve => exact absurd rfl hsolver
      · exact absurd hrunning hover

/-- A scope that is cancelled stays so. -/
theorem Takes.scopeCancelled (h : Takes r s r') (hinv : r.Invariant)
    (hscope : r.scopeCancelled = true) : r'.scopeCancelled = true := by
  unfold SolveRun.scopeCancelled at hscope ⊢
  cases hg : r.group with
  | none =>
    rw [hg] at hscope
    rcases h.group_of_none hg with hnone | ⟨-, -, hstarted⟩
    · rw [hnone]; exact h.cancelled hscope
    · rw [hstarted]; exact hscope
  | some g =>
    rw [hg] at hscope
    obtain ⟨g', hg', hmoved⟩ := h.group_of_some hinv hg
    rw [hg']
    rcases hmoved with rfl | ⟨t, -, htakes⟩
    · exact hscope
    · exact htakes.scopeCancelled hscope

/-- The relay loses and invents nothing. -/
theorem Takes.faithful (h : Takes r s r') (hinv : r.Invariant) : r'.relay.Faithful := by
  rcases h.relay_cases with hsame | ⟨t, htakes, -⟩
  · rw [hsame]; exact hinv.relay
  · exact htakes.faithful hinv.relay

/-- The relay stops after the engine, or in a cancelled scope. -/
theorem Takes.receiver (h : Takes r s r') (hinv : r.Invariant)
    (hstopped : r'.relay.phase = .stopped) :
    r'.relay.engineOpen = false ∨ r'.scopeCancelled = true := by
  have hscope := h.scopeCancelled hinv
  rcases h.relay_cases with hsame | ⟨t, htakes, hdrop, -⟩
  · rw [hsame] at hstopped ⊢
    exact (hinv.receiver hstopped).imp_right hscope
  · by_cases hbefore : r.relay.phase = .stopped
    · exact (hinv.receiver hbefore).imp htakes.closed hscope
    · rcases htakes.stops hbefore hstopped with ⟨-, hclosed⟩ | ht
      · exact Or.inl (htakes.closed hclosed)
      · exact Or.inr (hscope (hdrop ht))

/-- The relay stops only after it was started. -/
theorem Takes.stopped (h : Takes r s r') (hinv : r.Invariant)
    (hstopped : r'.relay.phase = .stopped) : r'.group.isSome = true := by
  rcases h.relay_cases with hsame | ⟨t, htakes, -, hstarted⟩
  · rw [hsame] at hstopped
    exact h.group_isSome hinv (hinv.stopped hstopped)
  · by_cases hbefore : r.relay.phase = .stopped
    · exact h.group_isSome hinv (hinv.stopped hbefore)
    · exact hstarted ((htakes.stops hbefore hstopped).imp_left And.left)

/-- The queue is open only while the engine works. -/
theorem Takes.engine (h : Takes r s r') (hinv : r.Invariant)
    (hopen : r'.relay.engineOpen = true) :
    r'.solver = .working := by
  have hbefore : r.relay.engineOpen = true := by
    rcases h.relay_cases with hsame | ⟨t, htakes, -⟩
    · rw [← hsame]; exact hopen
    · refine Classical.byContradiction fun hclosed => ?_
      rw [htakes.closed (Bool.eq_false_iff.mpr hclosed)] at hopen
      cases hopen
  have hworking := hinv.engine hbefore
  cases h with
  | engineReturns | enginePanics | dropSolve => cases hopen
  | closeSession hs | endSolve hs => rw [hworking] at hs; cases hs
  | cancelEarly | cancel | opens | failsToOpen | abandon | sessionReturns | send
    | closeQueue | relay
  | endRelay | dropSession | dropRelay | record | join | recordPanic | finish => exact hworking

/-- Without a result the solve is starting or goes on. -/
theorem Takes.running (h : Takes r s r') (hinv : r.Invariant) (hnone : r'.result = none) :
    r'.state = .sessionStarting ∨ r'.state = .solving := by
  rcases h.state_cases with ⟨hstate, hresult⟩ | ⟨-, hsolving, -⟩ | ⟨result, rfl, -⟩
  · rw [hstate]; exact hinv.running (hresult ▸ hnone)
  · exact Or.inr hsolving
  · cases hnone

/-- The state says how the solve ended. -/
theorem Takes.state_of_result (h : Takes r s r') (hinv : r.Invariant)
    (result : Except BuildFault Unit) (hresult : r'.result = some result) :
    r'.state = .ofResult result := by
  rcases h.state_cases with ⟨hstate, hsame⟩ | ⟨hstarting, -, hsame, -⟩ | ⟨result', rfl, -⟩
  · rw [hstate]; exact hinv.state result (hsame ▸ hresult)
  · rw [hinv.state result (hsame ▸ hresult)] at hstarting
    exact absurd hstarting (ofResult_ne result).1
  · cases hresult; rfl

/-- The result is that of the group, or a fault if there was none. -/
theorem Takes.result_fits (h : Takes r s r') (hinv : r.Invariant)
    (result : Except BuildFault Unit) (hresult : r'.result = some result) :
    match r'.group with
    | none => ∃ fault, result = .error fault
    | some g => g.result? = some result := by
  rcases h.state_cases with ⟨-, hsame⟩ | ⟨hstarting, -, hsame, -⟩ |
    ⟨result', rfl, ⟨fault, hstarting, rfl⟩ | ⟨-, g, hg, hgroup⟩⟩
  · rw [hsame] at hresult
    have hbefore := hinv.result result hresult
    cases hg : r.group with
    | none =>
      rw [hg] at hbefore
      rcases h.group_of_none hg with hnone | ⟨hstarting, -⟩
      · rw [hnone]; exact hbefore
      · rw [hinv.state result hresult] at hstarting
        exact absurd hstarting (ofResult_ne result).1
    | some g =>
      rw [hg] at hbefore
      obtain ⟨g', hg', hmoved⟩ := h.group_of_some hinv hg
      rw [hg']
      rcases hmoved with rfl | ⟨t, ht, htakes⟩
      · exact hbefore
      · -- The caller cannot cancel a solve that is over, and nothing else is left to do.
        obtain rfl := ht.of_cancel (htakes.eq_cancel_of_result? hbefore)
        cases h with
        | cancelEarly _ hnone | cancel _ hnone => rw [hnone] at hresult; cases hresult
  · rw [hinv.state result (hsame ▸ hresult)] at hstarting
    exact absurd hstarting (ofResult_ne result).1
  · cases hresult
    dsimp only [conclude]
    rw [hinv.starting hstarting]
    exact ⟨fault, rfl⟩
  · cases hresult
    dsimp only [conclude]
    rw [hg]
    exact hgroup

/-- Every step keeps the invariant. -/
theorem step_invariant (h : Takes r s r') (hinv : r.Invariant) : r'.Invariant where
  starting := h.starting hinv
  solving := h.solving hinv
  group := h.group_reached hinv
  solver := h.solver_fits hinv
  engine := h.engine hinv
  relay := h.faithful hinv
  stopped := h.stopped hinv
  receiver := h.receiver hinv
  running := h.running hinv
  state := h.state_of_result hinv
  result := h.result_fits hinv

/-- So does a run. -/
theorem advance_invariant (hinv : r.Invariant) (steps : List Step) :
    (r.advance steps).Invariant := advance_preserves step_invariant hinv steps

/-- What every step keeps that starts where the invariant holds is kept by a whole run. -/
theorem Invariant.preserves {Q : SolveRun → Prop} (hinv : r.Invariant)
    (hstep : ∀ {r s r'}, Takes r s r' → r.Invariant → Q r → Q r') (hQ : Q r) (steps : List Step) :
    Q (r.advance steps) := by
  have hall : (r.advance steps).Invariant ∧ Q (r.advance steps) :=
    advance_preserves (P := fun r => r.Invariant ∧ Q r)
      (fun htakes h => ⟨step_invariant htakes h.1, hstep htakes h.1 h.2⟩) ⟨hinv, hQ⟩ steps
  exact hall.2

end ImageBuild.SolveRun
