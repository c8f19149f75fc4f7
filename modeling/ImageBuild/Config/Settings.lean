import ImageBuild.Config.Environment
import ImageBuild.Toml.Document
import ImageBuild.Tree.Change

/-!
# `ImageBuild.Config.Settings`: how the build engine is reached

Each setting comes from the first of three layers that has it: the environment, the settings file,
the defaults. A value of the wrong type in a layer is a fault only if no layer before it has the
setting. Unknown settings count for nothing. A file that was asked for has to exist; the one at
the usual place need not.
-/

set_option autoImplicit false

namespace ImageBuild

open Config (Environment)
open Toml (Entries Value)

/-- How the build engine is reached and run. -/
structure EngineConfig where
  /-- Where the engine keeps its caches. -/
  stateDir : Path
  /-- The snapshot backend, which is passed on to the engine. -/
  backend : String
  engineProgram : String
  /-- The runtime helper that has to be on the search path. -/
  runtime : String
  /-- How many status batches may wait. -/
  eventBuffer : Nat
  deriving DecidableEq, Repr

namespace EngineConfig

/-- The directory of a user's files of a kind: what the variable names, if that is an absolute
path, and else a directory under the home directory. -/
def userDirectory (env : Environment) (name : String) (underHome : List String) : Path :=
  let usual := underHome.foldl (fun p part => p.join (.ofString part)) (.ofString env.home)
  match env.get? name with
  | some dir => if (Path.ofString dir).isAbsolute then .ofString dir else usual
  | none => usual

/-- The name of the program's own directories. -/
def ownName : Path := .ofString "kiln"

/-- Where the settings file usually is. -/
def usualFile (env : Environment) : Path :=
  ((userDirectory env "XDG_CONFIG_HOME" [".config"]).join ownName).join (.ofString "config.toml")

/-- The settings if neither file nor environment has any. -/
def defaults (env : Environment) : EngineConfig where
  stateDir := (userDirectory env "XDG_DATA_HOME" [".local", "share"]).join ownName
  backend := "auto"
  engineProgram := "kiln-solver"
  runtime := "runc"
  eventBuffer := 64

/-- A text. -/
def readText : Value → Option String
  | .text s => some s
  | _ => none

/-- A path. -/
def readPath (v : Value) : Option Path := (readText v).map Path.ofString

/-- A number of 64 bits without sign. -/
def readSize : Value → Option Nat
  | .integer n => if 0 ≤ n ∧ n < Text.wordLimit then some n.toNat else none
  | _ => none

/-- The setting with a key, from the first layer that has it. -/
def setting {α : Type} (layers : List Entries) (key : String) (read : Value → Option α)
    (default : α) : Except BuildFault α :=
  match layers.findSome? (·.lookup key) with
  | none => .ok default
  | some v =>
    match read v with
    | some a => .ok a
    | none => .error .config

/-- The settings that layers give, the first layer before the others. -/
def ofLayers (layers : List Entries) (defaults : EngineConfig) :
    Except BuildFault EngineConfig := do
  return {
    stateDir := ← setting layers "state_dir" readPath defaults.stateDir
    backend := ← setting layers "backend" readText defaults.backend
    engineProgram := ← setting layers "engine_program" readText defaults.engineProgram
    runtime := ← setting layers "runtime" readText defaults.runtime
    eventBuffer := ← setting layers "event_buffer" readSize defaults.eventBuffer }

/-- The settings in a file. -/
def ofFile (t : FileTree) (file : Path) : Except BuildFault Entries :=
  match (t.contents file).toOption.bind fun bytes => (Utf8.decode? bytes).bind Toml.parse? with
  | some entries => .ok entries
  | none => .error .config

/-- The settings file: the one that was asked for, or the one at the usual place, if there is
one. -/
def fileOf (t : FileTree) (env : Environment) (asked : Option Path) :
    Except BuildFault (Option Path) :=
  match asked with
  | some p => if t.isFile p then .ok (some p) else .error (.configNotFound p)
  | none => .ok (if t.isFile (usualFile env) then some (usualFile env) else none)

/-- Reads the settings. -/
def load (t : FileTree) (env : Environment) (asked : Option Path) :
    Except BuildFault EngineConfig := do
  let file ← fileOf t env asked
  let fromEnvironment ← env.settings
  let fromFile ← match file with
    | some file => ofFile t file
    | none => pure []
  ofLayers [fromEnvironment, fromFile] (defaults env)

end EngineConfig
end ImageBuild
