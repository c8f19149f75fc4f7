import ImageBuild.Config.Settings
import ImageBuild.Tree.Lookup

/-!
# `ImageBuild.Config.Preflight`: what has to be there before a solve

The runtime helper has to be installed, and the state directory is made if it is missing.
-/

set_option autoImplicit false

namespace ImageBuild

open Config (Environment)

/-- What the checks found. -/
structure RuntimeReady where
  runtime : Path
  stateDir : Path
  deriving DecidableEq, Repr

/-- Finds the runtime helper and makes the state directory. -/
def preflight (t : FileTree) (env : Environment) (config : EngineConfig) :
    Changed BuildFault RuntimeReady :=
  let name := Path.ofString config.runtime
  match t.findProgram? ((env.get? "PATH").getD "") env.home name with
  | none => (.error (.runtimeNotFound config.runtime), t)
  | some runtime =>
    match t.createAll config.stateDir with
    | (.error fault, t) => (.error (.stateDir config.stateDir fault), t)
    | (.ok (), t) => (.ok ⟨runtime, config.stateDir⟩, t)

end ImageBuild
