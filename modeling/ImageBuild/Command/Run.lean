import ImageBuild.Command.Arguments
import ImageBuild.Command.Report
import ImageBuild.Config.Preflight
import ImageBuild.Context.Staged
import ImageBuild.Engine.Program
import ImageBuild.Progress.Renderer
import ImageBuild.Request.Solve

/-!
# `ImageBuild.Command.Run`: what the command does

The command reads the settings, makes the sources ready, checks the request and the host, lets the
engine solve and shows its progress. `run` is the whole of it, from the world as the command finds
it to what it prints and leaves behind. Whatever happens, temporary storage is removed at the end.
-/

set_option autoImplicit false

namespace ImageBuild.Command

open Config (Environment)

/-- When the user interrupts the command. -/
inductive Interrupt
  /-- While it waits for standard input, which brings nothing. -/
  | reading
  /-- While the engine hangs. -/
  | solving
  deriving DecidableEq, Repr

/-- What the command finds when it is run. -/
structure World where
  tree : FileTree
  env : Environment
  stdin : Stream
  /-- The platform that is built for if none is named. -/
  hostPlatform : String
  /-- What the engine program does if it can be started. -/
  engine : Engine.Behaviour
  interrupt : Option Interrupt
  /-- Fresh identifiers of the request and of the session. -/
  requestId : String
  sessionId : String

/-- The call of the engine. -/
structure EngineCall where
  arguments : List Bytes
  request : SolveRequest

/-- What the command prints and answers. -/
structure Outcome where
  exit : Nat
  stdout : String
  stderr : Bytes
  /-- The request that the engine was handed. -/
  call : Option EngineCall
  tree : FileTree

/-- What the command has printed before it ends. -/
structure Printed where
  stdout : String
  stderr : Bytes
  call : Option EngineCall

/-- Nothing. -/
def Printed.nothing : Printed := ⟨"", [], none⟩

/-- How the command fails. -/
structure Failure where
  report : Report
  /-- It did not come to its own end but was stopped in the middle of its work. -/
  stopped : Bool
  deriving DecidableEq, Repr

/-- The failure that a report tells of. -/
def Report.failure (r : Report) : Failure := ⟨r, false⟩

/-- The end of a stage: what it printed, the tree, and its result or how it failed. -/
structure Stage (α : Type) where
  printed : Printed
  tree : FileTree
  result : Except Failure α

/-- The directory for temporary storage. -/
def temporaryDirectory (env : Environment) : Path := .ofString ((env.get? "TMPDIR").getD "/tmp")

/-- Makes the sources ready, reading standard input if one of them is read from there. -/
def readSources (w : World) (args : BuildArguments) :
    Except Report Context.BuildSources × FileTree :=
  match Context.ContextSource.ofString args.path with
  | .error f => (.error (.ofContextFault f), w.tree)
  | .ok context =>
    let recipe := Context.RecipeSource.ofString args.file
    match Context.StagedSources.stage w.tree (temporaryDirectory w.env) recipe context with
    | (.error f, t) =>
      (.error ((Report.ofContextFault f).within "resolving build input failed"), t)
    | (.ok staged, t) =>
      match staged.stdinRead with
      | none => (.ok (staged.finish none), t)
      | some read =>
        if w.interrupt = some .reading then (.error (.ofBuildFault .cancelled), staged.drop t)
        else
          match read.run t w.stdin with
          | (.error f, t) =>
            (.error ((Report.ofContextFault f).within "reading build input from stdin failed"),
              staged.drop t)
          | (.ok stored, t) => (.ok (staged.finish stored), t)

/-- The options of a build from some sources. -/
def optionsOf (args : BuildArguments) (sources : Context.BuildSources) : BuildOptions :=
  { (BuildOptions.ofContext sources.contextDir).withTarget args.target with
    recipe := sources.recipe
    tags := args.tags
    platforms := args.platforms
    buildArgs := args.buildArgs
    labels := args.labels
    noCache := args.noCache }

/-- The first tag as it is shown to the user. -/
def shownTag (r : BuildRequest) : String := (r.primaryTag?.map (·.familiar)).getD ""

/-- The engine program that the settings name. -/
def programOf (config : EngineConfig) : Engine.Program :=
  ⟨config.engineProgram, config.stateDir, config.backend⟩

/-- Why the engine program cannot be started, if it cannot. -/
def startFault? (w : World) (config : EngineConfig) (t : FileTree) : Option FileFault :=
  (programOf config).startFault? t ((w.env.get? "PATH").getD "")

/-- The request as it is handed to the engine. -/
def handedRequest (w : World) (r : BuildRequest) : SolveRequest :=
  r.solveRequest w.requestId w.sessionId

/-- The most batches that a queue can have room for. -/
def queueLimit : Nat := 0x1FFFFFFFFFFFFFFF

/-- A queue with room for more cannot be made, and asking for one stops the command. -/
def queueTooLong : Failure :=
  ⟨⟨s!"a queue has room for {queueLimit} batches at most", []⟩, true⟩

/-- The solve of a request, from the opening of the session to its end, if there can be a queue
for its batches. -/
def orchestrate (w : World) (config : EngineConfig) (t : FileTree) (r : BuildRequest) :
    Option SolveRun :=
  let written := (handedRequest w r).line?.isSome
  let cancelAt := if w.interrupt = some .solving then
      some ((Engine.readOutput w.engine.output).1.length + 1) else none
  let script := (programOf config).script (startFault? w config t) written w.engine
    config.eventBuffer cancelAt
  if queueLimit < config.eventBuffer then none else some script.run.run

/-- Lets the engine solve a request. -/
def solveWith (w : World) (config : EngineConfig) (t : FileTree) (r : BuildRequest) :
    Stage Unit :=
  let building := s!"Building {shownTag r}\n"
  match orchestrate w config t r with
  | none => ⟨⟨building, [], none⟩, t, .error queueTooLong⟩
  | some solve =>
    let startFault := startFault? w config t
    let request := handedRequest w r
    let progress := (Progress.Renderer.new.run ⟨none⟩ (solve.rendered none)).1
    let call := if startFault.isNone && request.line?.isSome && w.engine.sessionExit.isNone then
        some ⟨(programOf config).solveArguments, request⟩ else none
    match solve.result.getD (.error .cancelled) with
    | .ok () =>
      ⟨⟨building ++ s!"Successfully built {shownTag r}\n", progress, call⟩, t, .ok ()⟩
    | .error f =>
      ⟨⟨building, progress, call⟩, t,
        .error ((Report.ofBuildFault f).within "solve failed").failure⟩

/-- Checks the request and the host, and lets the engine solve. -/
def solve (w : World) (config : EngineConfig) (args : BuildArguments)
    (sources : Context.BuildSources) (t : FileTree) : Stage Unit :=
  match (optionsOf args sources).build t w.hostPlatform with
  | .error f =>
    ⟨.nothing, t,
      .error ((Report.ofBuildFault f).within "building solve request failed").failure⟩
  | .ok r =>
    match preflight t w.env config with
    | (.error f, t) =>
      ⟨.nothing, t, .error ((Report.ofBuildFault f).within "runtime preflight failed").failure⟩
    | (.ok _, t) => solveWith w config t r

/-- Builds an image. -/
def build (w : World) (config : EngineConfig) (args : BuildArguments) : Stage Unit :=
  if args.tags.isEmpty then ⟨.nothing, w.tree, .error (Report.ofBuildFault .missingTags).failure⟩
  else
    match readSources w args with
    | (.error report, t) => ⟨.nothing, t, .error report.failure⟩
    | (.ok sources, t) =>
      let stage := solve w config args sources t
      { stage with tree := (sources.close stage.tree).2 }

/-- What the command says of itself. -/
def versionText : String := "kiln 0.1.0\n"

/-- Whether the command is stopped in the middle of reading its settings. -/
def stopsReading : BuildFault → Bool
  | .unreadableVariable _ => true
  | _ => false

/-- What the command exits with when it fails. -/
def Failure.exit (f : Failure) : Nat := if f.stopped then 101 else 1

/-- What a stage leaves as the outcome of the command. -/
def outcomeOf (stage : Stage Unit) : Outcome :=
  match stage.result with
  | .ok () => ⟨0, stage.printed.stdout, stage.printed.stderr, stage.printed.call, stage.tree⟩
  | .error f =>
    ⟨f.exit, stage.printed.stdout, stage.printed.stderr ++ Utf8.encode f.report.text,
      stage.printed.call, stage.tree⟩

/-- Runs the command. -/
def run (w : World) (arguments : List String) : Outcome :=
  match Invocation.ofArguments arguments with
  | .misuse => ⟨2, "", [], none, w.tree⟩
  | .help topic => ⟨0, topic.page.text, [], none, w.tree⟩
  | .version => ⟨0, versionText, [], none, w.tree⟩
  | .build _ file args =>
    match EngineConfig.load w.tree w.env (file.map Path.ofString) with
    | .error f =>
      let report := (Report.ofBuildFault f).within "loading configuration failed"
      outcomeOf ⟨.nothing, w.tree, .error ⟨report, stopsReading f⟩⟩
    | .ok config => outcomeOf (build w config args)

end ImageBuild.Command
