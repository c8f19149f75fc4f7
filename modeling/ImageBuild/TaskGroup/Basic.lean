import ImageBuild.Request.Fault

/-!
# `ImageBuild.TaskGroup.Basic`: tasks that share one scope

A group runs a fixed set of tasks. The first that fails cancels the scope, and with it the others;
the group's result is that first failure. Tasks run at the same time, so a failure is recorded in
three steps (`Recording`) between which steps of other tasks may come. A panic is noticed only
when the waiter joins the task.

`TaskGroup.step?` is one step of one task, of the waiter, or from outside. Any order of possible
steps may happen. `TaskGroup.result?` is the result once all tasks are joined.
-/

set_option autoImplicit false

namespace ImageBuild

/-- How the body of a task ends by itself. -/
inductive TaskEnd
  | ok
  | failed (fault : BuildFault)
  | panicked
  deriving DecidableEq, Repr

namespace TaskGroup

/-- How far the recording of a failure is. -/
inductive Recording
  /-- Next comes a look at the scope. -/
  | examine (fault : BuildFault)
  /-- The scope was found open. Next the failure is stored, unless there is one already. -/
  | store (fault : BuildFault)
  /-- The failure was stored. Next the scope is cancelled. -/
  | cancel
  deriving DecidableEq, Repr

/-- What is known of the tasks that ended. -/
structure Outcome where
  /-- The scope is cancelled. -/
  scopeCancelled : Bool
  /-- The failure that the group reports. -/
  first : Option BuildFault
  /-- A task ended as a consequence of cancellation. -/
  stopped : Bool
  deriving DecidableEq, Repr

/-- One step of a recording. What is found after the scope is cancelled is a consequence, not a
cause, and so is what arrives after the first failure. -/
def Recording.step (o : Outcome) : Recording → Outcome × Option Recording
  | .examine fault =>
    if fault.isCancelled || o.scopeCancelled then ({ o with stopped := true }, none)
    else (o, some (.store fault))
  | .store fault =>
    match o.first with
    | some _ => (o, none)
    | none => ({ o with first := some fault }, some .cancel)
  | .cancel => ({ o with scopeCancelled := true }, none)

/-- What a task is doing. -/
inductive Phase
  /-- Its body runs. -/
  | running
  /-- Its failure is being recorded. -/
  | recording (r : Recording)
  /-- It is over and waits to be joined. -/
  | completed (panicked : Bool)
  | joined
  deriving DecidableEq, Repr

/-- A task of a group. -/
structure Entry where
  name : String
  phase : Phase
  /-- How the body ended by itself; `none` while it runs, and if it was dropped. -/
  ended : Option TaskEnd
  deriving DecidableEq, Repr

/-- What may happen next in a group. -/
inductive Step
  /-- The scope is cancelled from outside. -/
  | cancel
  /-- The body of a task ends by itself. -/
  | finish (task : Nat) (how : TaskEnd)
  /-- The body of a task is dropped, for the scope is cancelled. -/
  | drop (task : Nat)
  /-- A task goes on with the recording of its failure. -/
  | record (task : Nat)
  /-- The waiter joins a task that is over. -/
  | join (task : Nat)
  /-- The waiter goes on with the recording of a panic. -/
  | recordPanic
  deriving DecidableEq, Repr

end TaskGroup

/-- A group of tasks. -/
structure TaskGroup where
  tasks : List TaskGroup.Entry
  outcome : TaskGroup.Outcome
  /-- The recording of the panic of the task that was joined last. -/
  waiter : Option TaskGroup.Recording
  deriving DecidableEq, Repr

namespace TaskGroup

/-- A group whose tasks have just been started, in a scope that may be cancelled already. -/
def ofNames (names : List String) (cancelled : Bool) : TaskGroup where
  tasks := names.map fun name => ⟨name, .running, none⟩
  outcome := ⟨cancelled, none, false⟩
  waiter := none

/-- The phase of a task whose body has ended by itself. -/
def phaseAfter : TaskEnd → Phase
  | .ok => .completed false
  | .failed fault => .recording (.examine fault)
  | .panicked => .completed true

/-- The phase of a task after a step of its recording. -/
def phaseOf : Option Recording → Phase
  | some r => .recording r
  | none => .completed false

/-- The group with another task at an index. -/
def setTask (g : TaskGroup) (i : Nat) (e : Entry) : TaskGroup :=
  { g with tasks := g.tasks.set i e }

/-- The state after a step, or `none` if the step is not possible. -/
def step? (g : TaskGroup) : Step → Option TaskGroup
  | .cancel => some { g with outcome := { g.outcome with scopeCancelled := true } }
  | .finish i how =>
    match g.tasks[i]? with
    | some ⟨name, .running, _⟩ => some (g.setTask i ⟨name, phaseAfter how, some how⟩)
    | _ => none
  | .drop i =>
    match g.tasks[i]? with
    | some ⟨name, .running, ended⟩ =>
      if g.outcome.scopeCancelled then
        some (g.setTask i ⟨name, .recording (.examine .cancelled), ended⟩)
      else none
    | _ => none
  | .record i =>
    match g.tasks[i]? with
    | some ⟨name, .recording r, ended⟩ =>
      let (outcome, rest) := r.step g.outcome
      some { g.setTask i ⟨name, phaseOf rest, ended⟩ with outcome }
    | _ => none
  | .join i =>
    match g.waiter, g.tasks[i]? with
    | none, some ⟨name, .completed panicked, ended⟩ =>
      some { g.setTask i ⟨name, .joined, ended⟩ with
        waiter := if panicked then some (.examine (.taskPanicked name)) else none }
    | _, _ => none
  | .recordPanic =>
    match g.waiter with
    | some r =>
      let (outcome, waiter) := r.step g.outcome
      some { g with outcome, waiter }
    | none => none

/-- What the group reports once all tasks are joined: the first failure; else that it was
cancelled, if a task ended for that reason. -/
def result? (g : TaskGroup) : Option (Except BuildFault Unit) :=
  if g.tasks.all (fun e => e.phase = .joined) ∧ g.waiter = none then
    some (match g.outcome.first with
      | some fault => .error fault
      | none => if g.outcome.stopped then .error .cancelled else .ok ())
  else none

/-- Takes those of some steps that are possible when their turn comes. -/
def advance (g : TaskGroup) (steps : List Step) : TaskGroup :=
  steps.foldl (fun g s => (g.step? s).getD g) g

/-- Whether the body of a task still runs. -/
def isRunning (g : TaskGroup) (i : Nat) : Bool :=
  match g.tasks[i]? with
  | some e => e.phase = .running
  | none => false

/-- The steps in which a task records a failure, if no other task comes between. -/
def recordAll (i : Nat) : List Step := [.record i, .record i, .record i]

/-- The steps in which the waiter joins a task, if no other task comes between. -/
def joinAll (i : Nat) : List Step := [.join i, .recordPanic, .recordPanic, .recordPanic]

/-- The group after the waiter has joined all tasks that are over. -/
def joinOver (g : TaskGroup) : TaskGroup :=
  g.advance ((List.range g.tasks.length).flatMap joinAll)

end TaskGroup
end ImageBuild
