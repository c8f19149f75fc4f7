import ImageBuild.Progress.Relay
import ImageBuild.TaskGroup.Basic

/-!
# `ImageBuild.Solve.Run`: one solve under a session

A solve opens a session and then runs three tasks in one group: the session, which stays open
until it is told to close; the solve, in which the engine sends batches; and the relay, which
takes them to the renderer. When the engine returns, the solve task tells the session to close and
then ends, in two steps.

`SolveRun.step?` is one step of any of them, of the renderer, or of the caller, who may cancel.
Engine, session and renderer are not known: every end that they may have is a step. So what holds
after any number of possible steps holds for every engine and every schedule.
-/

set_option autoImplicit false

namespace ImageBuild

open Progress (Relay RelayStep SolveStatus StatusResponse)

/-- How far a solve is. -/
inductive SolveState
  | idle
  | sessionStarting
  | solving
  | succeeded
  | failed
  | cancelled
  deriving DecidableEq, Repr

namespace SolveState

/-- The state in words. -/
def name : SolveState → String
  | .idle => "idle"
  | .sessionStarting => "session-starting"
  | .solving => "solving"
  | .succeeded => "succeeded"
  | .failed => "failed"
  | .cancelled => "cancelled"

/-- Whether the solve is over. -/
def isTerminal : SolveState → Bool
  | .succeeded | .failed | .cancelled => true
  | _ => false

/-- The last state of a solve with this result. -/
def ofResult : Except BuildFault Unit → SolveState
  | .ok () => .succeeded
  | .error fault => if fault.isCancelled then .cancelled else .failed

/-- Every result makes a terminal state. -/
theorem isTerminal_ofResult (result : Except BuildFault Unit) :
    (ofResult result).isTerminal = true := by
  cases result with
  | ok => rfl
  | error fault => rw [ofResult]; split <;> rfl

end SolveState

namespace SolveRun

/-- The tasks of a solve, in the order in which they are started. -/
inductive Role
  | session
  | solve
  | relay
  deriving DecidableEq, Repr

namespace Role

/-- All tasks, in the order in which they are started. -/
def all : List Role := [.session, .solve, .relay]

/-- The place of the task in the group. -/
def index : Role → Nat
  | .session => 0
  | .solve => 1
  | .relay => 2

/-- The name of the task. -/
def name : Role → String
  | .session => "session"
  | .solve => "solve"
  | .relay => "relay"

end Role

/-- How far the solve task is. -/
inductive SolverPhase
  /-- The engine works and may send batches. -/
  | working
  /-- The engine has returned. Next the session is told to close. -/
  | returned (how : TaskEnd)
  /-- The session was told to close. Next the task ends. -/
  | closing (how : TaskEnd)
  | finished
  deriving DecidableEq, Repr

/-- What may happen next in a solve. -/
inductive Step
  /-- The caller cancels. -/
  | cancel
  /-- The session is open or could not be opened. -/
  | openSession (how : Except BuildFault Unit)
  /-- The opening of the session is given up, for the caller has cancelled. -/
  | abandon
  /-- What keeps the session open returns. -/
  | sessionReturns (how : TaskEnd)
  /-- The engine sends a batch. -/
  | send (batch : StatusResponse)
  /-- The engine closes its queue before it returns. -/
  | closeQueue
  /-- The engine returns, and its queue is closed if it still is open. -/
  | engineReturns (how : TaskEnd)
  /-- The solve task tells the session to close. -/
  | closeSession
  /-- The solve task ends as the engine has returned. -/
  | endSolve
  /-- The relay or the renderer does something. -/
  | relay (step : RelayStep)
  /-- A task is dropped, for the scope is cancelled. -/
  | drop (task : Role)
  /-- A task goes on with the recording of its failure. -/
  | record (task : Role)
  /-- The waiter joins a task that is over. -/
  | join (task : Role)
  /-- The waiter goes on with the recording of a panic. -/
  | recordPanic
  /-- All tasks are joined, and the solve is over. -/
  | finish

/-- The failure of a session that closes before anyone told it to. -/
def closedEarly : BuildFault := .session "session closed before the solve finished"

end SolveRun

/-- One solve. -/
structure SolveRun where
  state : SolveState
  /-- The caller has cancelled. -/
  cancelled : Bool
  /-- The tasks, once the session is open. -/
  group : Option TaskGroup
  solver : SolveRun.SolverPhase
  /-- The solve task has told the session to close. -/
  closed : Bool
  relay : Relay
  /-- How the solve ended. -/
  result : Option (Except BuildFault Unit)

namespace SolveRun

/-- A solve whose session is being opened, with room for so many batches in the two queues. -/
def new (eventBuffer rendererRoom : Nat) : SolveRun where
  state := .sessionStarting
  cancelled := false
  group := none
  solver := .working
  closed := false
  relay := .new eventBuffer rendererRoom
  result := none

/-- Whether the scope of the tasks is cancelled. -/
def scopeCancelled (r : SolveRun) : Bool :=
  match r.group with
  | some g => g.outcome.scopeCancelled
  | none => r.cancelled

/-- Whether the session is to close: the solve task told it so, or the scope is cancelled. -/
def shutdown (r : SolveRun) : Bool := r.closed || r.scopeCancelled

/-- The solve with its last state. -/
def conclude (r : SolveRun) (result : Except BuildFault Unit) : SolveRun :=
  { r with state := .ofResult result, result := some result }

/-- How the session task ends when what kept the session open has returned. -/
def sessionEnd (r : SolveRun) : TaskEnd → TaskEnd
  | .ok => if r.shutdown then .ok else .failed closedEarly
  | how => how

/-- The solve after a step of its group. -/
def groupStep? (r : SolveRun) (step : TaskGroup.Step) : Option SolveRun := do
  let g ← r.group
  let g ← g.step? step
  return { r with group := some g }

/-- The solve after a step of its relay. -/
def relayStep? (r : SolveRun) (step : RelayStep) : Option SolveRun := do
  let relay ← r.relay.step? step
  return { r with relay }

/-- The solve once nothing is left of the engine that could send. -/
def queueClosed (r : SolveRun) : SolveRun :=
  { r with relay := { r.relay with engineOpen := false } }

/-- The state after a step, or `none` if the step is not possible. -/
def step? (r : SolveRun) : Step → Option SolveRun
  | .cancel =>
    if r.cancelled || r.result.isSome then none
    else
      let r := { r with cancelled := true }
      match r.group with
      | some _ => r.groupStep? .cancel
      | none => some r
  | .openSession how =>
    if r.state = .sessionStarting then
      match how with
      | .ok () =>
        let group := TaskGroup.ofNames (Role.all.map (·.name)) r.cancelled
        some { r with group := some group, state := .solving }
      | .error fault => some (r.conclude (.error fault))
    else none
  | .abandon =>
    if r.state = .sessionStarting && r.cancelled then some (r.conclude (.error .cancelled))
    else none
  | .sessionReturns how => r.groupStep? (.finish Role.session.index (r.sessionEnd how))
  | .send batch =>
    if r.state = .solving && r.solver = .working then r.relayStep? (.send batch) else none
  | .closeQueue =>
    if r.state = .solving && r.solver = .working then r.relayStep? .close else none
  | .engineReturns how =>
    if r.state = .solving && r.solver = .working then
      match how with
      | .panicked =>
        ({ r.queueClosed with solver := .finished } : SolveRun).groupStep?
          (.finish Role.solve.index .panicked)
      | how => some { r.queueClosed with solver := .returned how }
    else none
  | .closeSession =>
    match r.solver with
    | .returned how => some { r with solver := .closing how, closed := true }
    | _ => none
  | .endSolve =>
    match r.solver with
    | .closing how =>
      ({ r with solver := .finished } : SolveRun).groupStep? (.finish Role.solve.index how)
    | _ => none
  | .relay step =>
    match step with
    | .send _ | .close | .drop => none
    | .finish => if r.state = .solving then do
        let r ← r.relayStep? .finish
        r.groupStep? (.finish Role.relay.index .ok)
      else none
    | step => r.relayStep? step
  | .drop task =>
    match task with
    | .session => r.groupStep? (.drop task.index)
    | .solve =>
      if r.solver = .working then do
        let r ← r.groupStep? (.drop task.index)
        return { r.queueClosed with solver := .finished }
      else none
    | .relay => do
      let r ← r.groupStep? (.drop task.index)
      r.relayStep? .drop
  | .record task => r.groupStep? (.record task.index)
  | .join task => r.groupStep? (.join task.index)
  | .recordPanic => r.groupStep? .recordPanic
  | .finish =>
    if r.result.isSome then none
    else do
      let g ← r.group
      let result ← g.result?
      return r.conclude result

/-- What the renderer gets of a solve that is over: it still takes what is in its queue, up to the
number of batches after which it hangs up. -/
def rendered (r : SolveRun) (take : Option Nat) : List SolveStatus :=
  match take with
  | none => r.relay.received ++ r.relay.outgoing
  | some n => (r.relay.received ++ r.relay.outgoing).take n

end SolveRun
end ImageBuild
