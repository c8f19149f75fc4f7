import ImageBuild.Archive.Fault
import ImageBuild.Reference.Basic

/-!
# `ImageBuild.Request.Fault`: why a build fails

From the validation of a request to the end of its solve. The texts that an engine, a session or a
library supplies are part of the fault.
-/

set_option autoImplicit false

namespace ImageBuild

/-- Which list of `key=value` entries an entry belongs to. -/
inductive EntryKind
  | buildArg
  | label
  deriving DecidableEq, Repr

/-- The list in words. -/
def EntryKind.name : EntryKind → String
  | .buildArg => "build-arg"
  | .label => "label"

/-- Why a build fails. -/
inductive BuildFault
  | missingTags
  | invalidReference (value : String) (defect : Reference.Defect)
  | invalidKeyValue (kind : EntryKind) (entry : String)
  /-- The default recipe cannot be joined onto the context. -/
  | recipePath (cause : Archive.Fault)
  | configNotFound (path : Path)
  /-- The settings cannot be read. -/
  | config
  /-- A quoted text in this variable has an escape where it cannot be resolved. -/
  | unreadableVariable (name : String)
  | runtimeNotFound (name : String)
  | stateDir (path : Path) (cause : FileFault)
  | session (text : String)
  | solve (text : String)
  | relay (text : String)
  /-- A message to or from the engine cannot be written or read. -/
  | protocol
  | cancelled
  | taskPanicked (task : String)
  | io (text : String)
  deriving DecidableEq, Repr

namespace BuildFault

/-- The fault in words. The texts of unreadable settings and messages are not part of it. -/
def message : BuildFault → String
  | .missingTags => "please specify a tag (e.g. -t myapp)"
  | .invalidReference value defect => s!"invalid reference format '{value}': {defect.reason}"
  | .invalidKeyValue kind entry => s!"invalid {kind.name} '{entry}': expected key=value"
  | .recipePath cause => s!"resolving recipe path failed: {cause.message}"
  | .configNotFound path => s!"configuration file '{path.display}' does not exist"
  | .config => "loading configuration failed"
  | .unreadableVariable name => s!"an escape in variable '{name}' divides a character"
  | .runtimeNotFound name =>
    s!"runtime helper '{name}' not found in PATH: cannot find binary path"
  | .stateDir path cause => s!"state directory '{path.display}' is unavailable: {cause.message}"
  | .session text => s!"session failed: {text}"
  | .solve text => s!"solve failed: {text}"
  | .relay text => s!"relaying progress failed: {text}"
  | .protocol => "engine sent a malformed message"
  | .cancelled => "solve cancelled"
  | .taskPanicked task => s!"task '{task}' panicked"
  | .io text => text

/-- Whether a task that fails so only stopped because its scope was cancelled. -/
def isCancelled : BuildFault → Bool
  | .cancelled => true
  | _ => false

/-- The one fault that counts as a cancellation. -/
theorem isCancelled_iff {fault : BuildFault} : fault.isCancelled = true ↔ fault = .cancelled := by
  cases fault <;> simp [isCancelled]

end BuildFault
end ImageBuild
