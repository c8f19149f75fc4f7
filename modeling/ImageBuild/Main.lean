import ImageBuild.Command.Run

/-!
# `ImageBuild.Main`: the program

The program takes arguments, environment and standard input from the outside, runs the command and
prints what it answers. The files it works on are a tree of its own with the directories that the
environment names; nothing outside is changed.
-/

set_option autoImplicit false

namespace ImageBuild.Program

/-- The variables that the command looks at. -/
def variableNames : List String :=
  ["HOME", "PATH", "TMPDIR", "XDG_CONFIG_HOME", "XDG_DATA_HOME", "KILN_STATE_DIR", "KILN_BACKEND",
    "KILN_ENGINE_PROGRAM", "KILN_RUNTIME", "KILN_EVENT_BUFFER"]

/-- The variables that are set. -/
def environment : IO Config.Environment :=
  variableNames.filterMapM fun name => do
    return (← IO.getEnv name).map fun value => (name, value)

/-- The directory of temporary storage and the home directory, in an empty tree. -/
def startingTree (env : Config.Environment) : FileTree :=
  let directories := [Command.temporaryDirectory env, .ofString env.home]
  directories.foldl (fun t p => (t.createAll p).2) ⟨[], []⟩

/-- Whether a command line may want standard input. -/
def wantsInput (arguments : List String) : Bool :=
  match Command.Invocation.ofArguments arguments with
  | .build _ _ args => args.path = "-" || args.file = "-"
  | _ => false

/-- Reads standard input to its end. -/
partial def readAll (input : IO.FS.Stream) (read : List Bytes) : IO Stream := do
  let chunk ← input.read 65536
  if chunk.isEmpty then return ⟨read.reverse, false⟩
  else readAll input (chunk.toList :: read)

/-- The world of a run. The engine program says nothing. -/
def world (arguments : List String) : IO Command.World := do
  let env ← environment
  let stdin ← if wantsInput arguments then readAll (← IO.getStdin) [] else pure ⟨[], false⟩
  return {
    tree := startingTree env
    env
    stdin
    hostPlatform := "linux/amd64"
    engine := ⟨[], some (.code 0), none⟩
    interrupt := none
    requestId := "request"
    sessionId := "session" }

end ImageBuild.Program

/-- Runs the command. -/
def main (arguments : List String) : IO UInt32 := do
  let outcome := ImageBuild.Command.run (← ImageBuild.Program.world arguments) arguments
  (← IO.getStdout).putStr outcome.stdout
  (← IO.getStderr).write ⟨outcome.stderr.toArray⟩
  return outcome.exit.toUInt32
