import ImageBuild.Solve.Run

/-!
# `ImageBuild.Solve.Scripted`: solves in which everyone acts at given times

A script says when the session opens and ends, when the engine sends which batch and how it
returns, how fast the renderer is, and when the caller cancels. Nothing takes time but waiting. At
one time everyone goes on as far as possible, in turns: the opening of the session, the caller,
the renderer, the session, the solve task, the relay; and when none of them can go on, who waits
for them. A caller that cancels at the very start does so before the session is opened.
`Script.run` takes possible steps of a `SolveRun` only.
-/

set_option autoImplicit false

namespace ImageBuild.Solve

open Progress (RelayStep SolveStatus StatusResponse)

/-- What a session does. -/
structure SessionScript where
  /-- How long the opening takes. -/
  openAfter : Nat
  /-- How the opening ends. -/
  opening : Except BuildFault Unit
  /-- After how long the session ends by itself; never if there is none. -/
  after : Option Nat
  /-- How it ends then. -/
  ends : TaskEnd
  /-- How it ends when it is told to close. -/
  onShutdown : TaskEnd

/-- A batch of the engine, or something that cannot be read as one, after a wait. -/
structure Sending where
  after : Nat
  batch : Option StatusResponse

/-- What an engine does. -/
structure EngineScript where
  sendings : List Sending
  /-- How long it waits after the last sending; forever if there is none. -/
  after : Option Nat
  /-- How it returns then. -/
  ends : TaskEnd

/-- What a renderer does. -/
structure RendererScript where
  room : Nat
  /-- After how many batches it hangs up. -/
  take : Option Nat
  /-- How long it works on a batch. -/
  delay : Nat

/-- What everyone does in a solve. -/
structure Script where
  eventBuffer : Nat
  session : SessionScript
  engine : EngineScript
  renderer : RendererScript
  cancelAt : Option Nat

/-- What was asked of an engine, and what became of its session. -/
inductive JournalEntry
  | session (state : SolveState)
  | solve (state : SolveState)
  | sessionEnded
  | sessionClosed
  deriving DecidableEq, Repr

/-- A scripted solve at a time. -/
structure Stage where
  now : Nat
  run : SolveRun
  /-- How many steps were taken. -/
  steps : Nat
  /-- What happened so far, latest first. -/
  journal : List JournalEntry
  /-- When the session opens. -/
  openDue : Option Nat
  /-- When the session ends by itself. -/
  sessionDue : Option Nat
  /-- The sendings that are left. -/
  sendings : List Sending
  /-- Whether the engine was asked to solve. -/
  asked : Bool
  /-- When the wait before the next sending or before the return is over. -/
  engineDue : Option Nat
  /-- When the renderer is done with its last batch. -/
  rendererDue : Nat

namespace Stage

/-- The solve of a script before anyone acts. -/
def startRun (s : Script) : SolveRun :=
  { SolveRun.new (max 1 s.eventBuffer) s.renderer.room with cancelled := s.cancelAt = some 0 }

/-- The first stage of a script. -/
def start (s : Script) : Stage where
  now := 0
  run := startRun s
  steps := 0
  journal := []
  openDue := none
  sessionDue := none
  sendings := s.engine.sendings
  asked := false
  engineDue := none
  rendererDue := 0

/-- Takes a step if it is possible. -/
def perform (g : Stage) (step : SolveRun.Step) : Stage :=
  match g.run.step? step with
  | some run => { g with run, steps := g.steps + 1 }
  | none => g

/-- Takes those of some steps that are possible when their turn comes. -/
def performAll (g : Stage) (steps : List SolveRun.Step) : Stage := steps.foldl perform g

def note (g : Stage) (entry : JournalEntry) : Stage := { g with journal := entry :: g.journal }

/-- Whether a time has come. -/
def isDue (g : Stage) (time : Option Nat) : Bool :=
  match time with
  | some t => t ≤ g.now
  | none => false

def isRunning (g : Stage) (task : SolveRun.Role) : Bool :=
  match g.run.group with
  | some group => group.isRunning task.index
  | none => false

/-- A task records its failure, if it has one. -/
def recordAll (g : Stage) (task : SolveRun.Role) : Stage :=
  g.performAll [.record task, .record task, .record task]

/-- The group drops a task that still runs in a cancelled scope. -/
def dropIfCancelled (g : Stage) (task : SolveRun.Role) : Stage :=
  if g.isRunning task && g.run.scopeCancelled then (g.perform (.drop task)).recordAll task else g

/-- The caller cancels when the time has come. -/
def pollCaller (s : Script) (g : Stage) : Stage :=
  if g.isDue s.cancelAt then g.perform .cancel else g

/-- The session opens when the time has come, unless the caller has cancelled. -/
def pollOpening (s : Script) (g : Stage) : Stage :=
  if g.run.state = .sessionStarting then
    if g.run.cancelled then g.perform .abandon
    else
      let g := match g.openDue with
        | some _ => g
        | none =>
          { g.note (.session g.run.state) with openDue := some (g.now + s.session.openAfter) }
      if g.isDue g.openDue then
        { g.perform (.openSession s.session.opening) with
          sessionDue := s.session.after.map (g.now + ·) }
      else g
  else g

/-- The session ends by itself when the time has come, and else when it is told to close. -/
def pollSession (s : Script) (g : Stage) : Stage :=
  if g.isRunning .session then
    if g.isDue g.sessionDue then
      ((g.note .sessionEnded).perform (.sessionReturns s.session.ends)).recordAll .session
    else if g.run.shutdown then
      ((g.note .sessionClosed).perform (.sessionReturns s.session.onShutdown)).recordAll .session
    else g
  else g

/-- The engine returns, and the solve task ends. -/
def returnEngine (g : Stage) (how : TaskEnd) : Stage :=
  (g.performAll [.engineReturns how, .closeSession, .endSolve]).recordAll .solve

/-- When the engine acts next after waiting from now on. -/
def nextDue (s : Script) (g : Stage) (left : List Sending) : Option Nat :=
  match left with
  | sending :: _ => some (g.now + sending.after)
  | [] => s.engine.after.map (g.now + ·)

/-- The engine goes on with what is left to send, until it has to wait. -/
def runEngine (s : Script) : List Sending → Stage → Stage
  | [], g => if g.isDue g.engineDue then g.returnEngine s.engine.ends else g
  | sending :: rest, g =>
    if g.isDue g.engineDue then
      match sending.batch with
      | none => g.returnEngine (.failed .protocol)
      | some batch =>
        if g.run.relay.phase = .stopped then g.returnEngine (.failed (.relay "closed"))
        else
          match g.run.step? (.send batch) with
          | some run =>
            runEngine s rest { g with
              run, steps := g.steps + 1, sendings := rest, engineDue := g.nextDue s rest }
          | none => g
    else g

/-- The engine is asked to solve and goes on until it has to wait. -/
def pollEngine (s : Script) (g : Stage) : Stage :=
  if g.isRunning .solve then
    let g := if g.asked then g
      else { g.note (.solve g.run.state) with asked := true, engineDue := g.nextDue s g.sendings }
    (runEngine s g.sendings g).dropIfCancelled .solve
  else g

/-- The relay goes on until it has to wait. It takes at most two steps for a batch. -/
def pollRelay (g : Stage) : Stage :=
  if g.isRunning .relay then
    let rounds := g.run.relay.incoming.length + 2
    let own := Progress.Relay.ownSteps.map SolveRun.Step.relay
    (g.performAll (List.replicate rounds own).flatten).dropIfCancelled .relay
  else g

/-- The renderer takes a batch when it is done with the last one, or hangs up. -/
def pollRenderer (s : Script) (g : Stage) : Stage :=
  if g.rendererDue ≤ g.now then
    let step := g.run.relay.rendererStep s.renderer.take
    let after := g.perform (.relay step)
    if step = .deliver && g.steps < after.steps then
      { after with rendererDue := g.now + s.renderer.delay }
    else after
  else g

/-- The tasks that are over are joined, and the solve ends with the last one. -/
def pollWaiter (g : Stage) : Stage :=
  let joins (task : SolveRun.Role) : List SolveRun.Step :=
    [.join task, .recordPanic, .recordPanic, .recordPanic]
  (g.performAll (SolveRun.Role.all.flatMap joins)).perform .finish

/-- Everyone who acts by himself has a turn. -/
def turn (s : Script) (g : Stage) : Stage :=
  let g := pollCaller s (pollOpening s g)
  pollRelay (pollEngine s (pollSession s (pollRenderer s g)))

/-- The first of some times that is still to come. -/
def nextTime (g : Stage) (times : List (Option Nat)) : Option Nat :=
  ((times.filterMap id).filter (g.now < ·)).min?

/-- The times at which someone may go on. -/
def times (s : Script) (g : Stage) : List (Option Nat) :=
  [s.cancelAt, g.openDue, g.sessionDue, g.engineDue, some g.rendererDue]

/-- Turns follow each other; when nobody can go on the waiter has one, and after that time passes,
until the solve is over. -/
def advance (s : Script) : (fuel : Nat) → Stage → Stage
  | 0, g => g
  | fuel + 1, g =>
    let after := g.turn s
    if after.run.result.isSome then after
    else if g.steps < after.steps then advance s fuel after
    else
      let joined := after.pollWaiter
      if joined.run.result.isSome then joined
      else if after.steps < joined.steps then advance s fuel joined
      else
        match joined.nextTime (times s joined) with
        | some now => advance s fuel { joined with now }
        | none => joined

end Stage

/-- The end of a scripted solve. It is over after a number of turns that the number of sendings
bounds, unless someone never ends. -/
def Script.run (s : Script) : Stage :=
  Stage.advance s (16 * s.engine.sendings.length + 64) (.start s)

end ImageBuild.Solve
