import ImageBuild.TaskGroup.Basic

/-!
# `ImageBuild.TaskGroup.Timed`: groups of tasks that end at given times

The body of a timed task ends by itself after a while, or once the scope is cancelled if it
watches the scope. Nothing takes time but waiting. At one time, first the bodies end whose time
has come, then the caller cancels, then the tasks that are left learn that the scope is cancelled.
The waiter looks at what is over when all had their turn, and also whenever `turnsPerLook` had
theirs. A caller that cancels at the very start does so before the group is made.
-/

set_option autoImplicit false

namespace ImageBuild.TaskGroup

/-- A task with a time. -/
structure TimedTask where
  name : String
  /-- After how many milliseconds the body ends; never if there is none. -/
  after : Option Nat
  /-- How it ends then. -/
  ends : TaskEnd
  /-- How it ends when the scope is cancelled; if there is none, the group drops it. -/
  onCancel : Option TaskEnd
  deriving DecidableEq, Repr

/-- The end of a task; a task that the group dropped has none of its own. -/
structure Event where
  time : Nat
  name : String
  how : Option TaskEnd
  deriving DecidableEq, Repr

/-- A group of timed tasks at a time. -/
structure Timeline where
  group : TaskGroup
  /-- What happened so far, latest first. -/
  events : List Event
  deriving DecidableEq, Repr

namespace Timeline

/-- The body of a task ends by itself. -/
def finish (l : Timeline) (now i : Nat) (t : TimedTask) (how : TaskEnd) : Timeline where
  group := l.group.advance (.finish i how :: recordAll i)
  events := ⟨now, t.name, some how⟩ :: l.events

/-- A task runs, up to the time. -/
def poll (now : Nat) (l : Timeline) (task : TimedTask × Nat) : Timeline :=
  let (t, i) := task
  if l.group.isRunning i && t.after == some now then l.finish now i t t.ends else l

/-- A task that still runs learns that the scope is cancelled. -/
def stop (now : Nat) (l : Timeline) (task : TimedTask × Nat) : Timeline :=
  let (t, i) := task
  if l.group.isRunning i && l.group.outcome.scopeCancelled then
    match t.onCancel with
    | some how => l.finish now i t how
    | none =>
      { group := l.group.advance (.drop i :: recordAll i)
        events := ⟨now, t.name, none⟩ :: l.events }
  else l

/-- Whose turn it is. -/
inductive Turn
  | task (t : TimedTask) (index : Nat)
  | caller
  deriving DecidableEq, Repr

/-- After how many turns the waiter looks at what is over, even if others are waiting. -/
def turnsPerLook : Nat := 61

/-- The turns at a time. At the start every task has one. -/
def turns (l : Timeline) (tasks : List TimedTask) (cancelAt : Option Nat) (now : Nat) :
    List Turn :=
  let due := tasks.zipIdx.filter fun (t, i) =>
    now == 0 || l.group.isRunning i && t.after == some now
  due.map (fun (t, i) => .task t i) ++
    if now ≠ 0 ∧ cancelAt = some now then [.caller] else []

/-- One turn. -/
def turn (now : Nat) (l : Timeline) : Turn → Timeline
  | .task t i => l.poll now (t, i)
  | .caller => { l with group := l.group.advance [.cancel] }

/-- The waiter joins what is over. -/
def look (l : Timeline) : Timeline := { l with group := l.group.joinOver }

/-- Takes turns; `left` of them are left before the next look. -/
def takeTurns (now : Nat) : (left : Nat) → List Turn → Timeline → Timeline
  | _, [], l => l.look
  | 0, t :: rest, l => takeTurns now (turnsPerLook - 1) rest (l.look.turn now t)
  | left + 1, t :: rest, l => takeTurns now left rest (l.turn now t)

/-- All that happens at a time. -/
def instant (tasks : List TimedTask) (cancelAt : Option Nat) (now : Nat) (l : Timeline) :
    Timeline :=
  let l := takeTurns now turnsPerLook (l.turns tasks cancelAt now) l
  (tasks.zipIdx.foldl (stop now) l).look

end Timeline

/-- How a group ended. -/
structure TimedReport where
  result : Except BuildFault Unit
  /-- When the last task was joined. -/
  elapsed : Nat
  scopeCancelled : Bool
  /-- The ends of the tasks, latest first. -/
  events : List Event

/-- Lets times pass until all tasks are joined. -/
def runInstants (tasks : List TimedTask) (cancelAt : Option Nat) :
    List Nat → Timeline → Option TimedReport
  | [], _ => none
  | now :: later, l =>
    let l := l.instant tasks cancelAt now
    match l.group.result? with
    | some result => some ⟨result, now, l.group.outcome.scopeCancelled, l.events⟩
    | none => runInstants tasks cancelAt later l

/-- The end of a group whose scope may be cancelled from outside at a time. There is none if a
task never ends. -/
def runTimed (tasks : List TimedTask) (cancelAt : Option Nat) : Option TimedReport :=
  let times := 0 :: (tasks.filterMap (·.after) ++ cancelAt.toList)
  runInstants tasks cancelAt (times.mergeSort (· ≤ ·))
    ⟨.ofNames (tasks.map (·.name)) (cancelAt = some 0), []⟩

end ImageBuild.TaskGroup
