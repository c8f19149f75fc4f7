import ImageBuild.Progress.Status

/-!
# `ImageBuild.Progress.Relay`: batches on their way from the engine to the renderer

The engine puts batches into one bounded queue, the relay takes them out, translates them and puts
them into another, and the renderer takes them from there. The renderer may hang up; the relay
notices that when it next forwards a batch, and from then on only drains the first queue.

`Relay.step?` is one step of one of the three. Any order of possible steps may happen; what was
sent and what was received is kept so that the two can be compared. `Relay.exchange` is the run in
which everyone goes on as far as possible.
-/

set_option autoImplicit false

namespace ImageBuild.Progress

/-- What the relay is doing. -/
inductive RelayPhase
  /-- It waits for a batch. -/
  | waiting
  /-- It has a batch and waits for room. -/
  | holding (batch : SolveStatus)
  /-- It has ended or was dropped. -/
  | stopped
  deriving DecidableEq, Repr

/-- The two queues, the relay between them, and who is still there. -/
structure Relay where
  /-- How many batches fit into the queue from the engine. -/
  incomingRoom : Nat
  /-- How many batches fit into the queue to the renderer. -/
  outgoingRoom : Nat
  incoming : List StatusResponse
  outgoing : List SolveStatus
  /-- The engine may send more. -/
  engineOpen : Bool
  phase : RelayPhase
  /-- The renderer takes no more. -/
  hungUp : Bool
  /-- The relay knows that the renderer hung up. -/
  detached : Bool
  /-- All batches that the engine has put into its queue. -/
  sent : List StatusResponse
  /-- All batches that the renderer has taken. -/
  received : List SolveStatus
  deriving DecidableEq, Repr

/-- One step of the engine, the relay or the renderer. -/
inductive RelayStep
  /-- The engine puts a batch into its queue. -/
  | send (batch : StatusResponse)
  /-- The engine will send no more. -/
  | close
  /-- The relay takes a batch; with no renderer it discards it. -/
  | take
  /-- The relay puts its batch into the queue to the renderer. -/
  | forward
  /-- The relay finds that the renderer hung up, and its batch is lost. -/
  | detach
  /-- The relay ends: the engine's queue is closed and empty. -/
  | finish
  /-- The relay is dropped, together with what is in the engine's queue. -/
  | drop
  /-- The renderer takes a batch. -/
  | deliver
  /-- The renderer hangs up; what is in its queue is lost. -/
  | hangUp
  deriving DecidableEq, Repr

namespace Relay

/-- Two empty queues with room for so many batches. -/
def new (incomingRoom outgoingRoom : Nat) : Relay where
  incomingRoom
  outgoingRoom
  incoming := []
  outgoing := []
  engineOpen := true
  phase := .waiting
  hungUp := false
  detached := false
  sent := []
  received := []

/-- The state after a step, or `none` if the step is not possible. -/
def step? (r : Relay) : RelayStep → Option Relay
  | .send b =>
    if r.engineOpen && r.phase != .stopped && decide (r.incoming.length < r.incomingRoom) then
      some { r with incoming := r.incoming ++ [b], sent := r.sent ++ [b] }
    else none
  | .close => if r.engineOpen then some { r with engineOpen := false } else none
  | .take =>
    match r.phase, r.incoming with
    | .waiting, b :: rest =>
      let phase := if r.detached then .waiting else .holding (translate b)
      some { r with incoming := rest, phase }
    | _, _ => none
  | .forward =>
    match r.phase with
    | .holding b =>
      if !r.hungUp && decide (r.outgoing.length < r.outgoingRoom) then
        some { r with outgoing := r.outgoing ++ [b], phase := .waiting }
      else none
    | _ => none
  | .detach =>
    match r.phase with
    | .holding _ => if r.hungUp then some { r with detached := true, phase := .waiting } else none
    | _ => none
  | .finish =>
    if r.phase = .waiting ∧ r.incoming = [] ∧ r.engineOpen = false then
      some { r with phase := .stopped }
    else none
  | .drop =>
    if r.phase = .stopped then none else some { r with phase := .stopped, incoming := [] }
  | .deliver =>
    match r.outgoing with
    | b :: rest =>
      if r.hungUp then none else some { r with outgoing := rest, received := r.received ++ [b] }
    | [] => none
  | .hangUp => if r.hungUp then none else some { r with hungUp := true, outgoing := [] }

/-- The state after the first of some steps that is possible. -/
def stepFirst? (r : Relay) (steps : List RelayStep) : Option Relay := steps.firstM r.step?

/-- The steps that the relay itself takes. -/
def ownSteps : List RelayStep := [.forward, .detach, .take, .finish]

/-- What a renderer does that hangs up after so many batches. -/
def rendererStep (take : Option Nat) (r : Relay) : RelayStep :=
  if take = some r.received.length then .hangUp else .deliver

/-- The relay and the queues once nothing more is possible, given the batches that the engine has
yet to send and after how many the renderer hangs up. A batch makes at most four steps. -/
def runExchange (take : Option Nat) : (fuel : Nat) → List StatusResponse → Relay → Relay
  | 0, _, r => r
  | fuel + 1, left, r =>
    match r.stepFirst? (rendererStep take r :: ownSteps) with
    | some r => runExchange take fuel left r
    | none =>
      match left with
      | b :: rest =>
        match r.step? (.send b) with
        | some r => runExchange take fuel rest r
        | none => r
      | [] =>
        match r.step? .close with
        | some r => runExchange take fuel [] r
        | none => r

/-- Sends batches through queues with room for `room` each, to a renderer that hangs up after
`take` batches. -/
def exchange (room : Nat) (take : Option Nat) (batches : List StatusResponse) : Relay :=
  runExchange take (4 * batches.length + 4) batches (new room room)

end Relay
end ImageBuild.Progress
