import ImageBuild.Engine.Output
import ImageBuild.Solve.Scripted
import ImageBuild.Tree.Start

/-!
# `ImageBuild.Engine.Program`: engines that are external programs

A program is run once to keep a session open and once to solve. The second run gets the request as
one line and answers with messages. `Program.script` is what becomes of a solve, given what the
program does when it is run; lines come one after the other, so that each batch is on its way
before the next line is read.
-/

set_option autoImplicit false

namespace ImageBuild.Engine

/-- How a run of a program ends. -/
inductive ExitStatus
  | code (n : Nat)
  /-- It was killed at once. -/
  | killed
  deriving DecidableEq, Repr

/-- The status in words. -/
def ExitStatus.display : ExitStatus → String
  | .code n => s!"exit status: {n}"
  | .killed => "signal: 9 (SIGKILL)"

/-- What the program does when it is run. -/
structure Behaviour where
  /-- What it writes when it solves. -/
  output : Bytes
  /-- How it ends after that; it hangs if there is none. -/
  exit : Option ExitStatus
  /-- How the run for the session ends by itself; it stays open if there is none. -/
  sessionExit : Option ExitStatus

/-- A program and how to call it. -/
structure Program where
  program : String
  stateDir : Path
  backend : String
  deriving DecidableEq, Repr

namespace Program

/-- The arguments of the run that solves. -/
def solveArguments (p : Program) : List Bytes :=
  [Utf8.encode "--state-dir", p.stateDir.bytes, Utf8.encode "--backend", Utf8.encode p.backend,
    Utf8.encode "solve"]

/-- Why the program cannot be started with its arguments. -/
def startFault? (p : Program) (t : FileTree) (searchPath : String) : Option FileFault :=
  if p.stateDir.hasNul || (Path.ofString p.backend).hasNul then some .nulInCommand
  else t.startFault? searchPath p.program

/-- The failure of a program that cannot be started. -/
def notStarted (p : Program) (fault : FileFault) : BuildFault :=
  .session s!"starting '{p.program}' failed: {fault.message}"

/-- The failure of a session that ends by itself. -/
def sessionEnded (status : ExitStatus) : BuildFault :=
  .session s!"session process exited with {status.display}"

/-- How the engine returns when the program's output ends so. After the end of the solve, as after
the end of the output, the program is waited for, so one that hangs keeps the engine. -/
def resultOf (exit : Option ExitStatus) : Verdict → Option TaskEnd
  | .done => exit.map fun _ => .ok
  | .failed text => some (.failed (.solve text))
  | .malformed => some (.failed .protocol)
  | .notText fault => some (.failed (.io fault.message))
  | .silent => exit.map fun status =>
      .failed (.solve s!"solver exited with {status.display} before reporting completion")

/-- What the engine does with a request that can be written, or with one that cannot. -/
def engineScript (written : Bool) (b : Behaviour) : Solve.EngineScript :=
  if written then
    let (batches, verdict) := readOutput b.output
    let result := resultOf b.exit verdict
    { sendings := batches.map fun batch => ⟨1, some batch⟩
      after := result.map fun _ => 1
      ends := result.getD .ok }
  else { sendings := [], after := some 0, ends := .failed .protocol }

/-- What the session does. -/
def sessionScript (p : Program) (startFault : Option FileFault) (b : Behaviour) :
    Solve.SessionScript where
  openAfter := 0
  opening := match startFault with
    | some fault => .error (p.notStarted fault)
    | none => .ok ()
  after := b.sessionExit.map fun _ => 0
  ends := match b.sessionExit with
    | some status => .failed (sessionEnded status)
    | none => .ok
  onShutdown := .ok

/-- What becomes of a solve whose renderer keeps up. -/
def script (p : Program) (startFault : Option FileFault) (written : Bool) (b : Behaviour)
    (eventBuffer : Nat) (cancelAt : Option Nat) : Solve.Script where
  eventBuffer
  session := p.sessionScript startFault b
  engine := engineScript written b
  renderer := ⟨max 1 eventBuffer, none, 0⟩
  cancelAt

end Program
end ImageBuild.Engine
