import ImageBuild.Archive.Compression
import ImageBuild.Tree.Confined

/-!
# `ImageBuild.Archive.Fault`: why an archive cannot be unpacked
-/

set_option autoImplicit false

namespace ImageBuild.Archive

/-- Why a file's content cannot be put in place. -/
inductive WriteFault
  | file (f : FileFault)
  | stream (f : StreamFault)
  deriving DecidableEq, Repr

/-- The fault in words. -/
def WriteFault.message : WriteFault → String
  | .file f => f.message
  | .stream f => f.message

/-- Why unpacking stops. -/
inductive Fault
  | unsupported (c : Compression)
  /-- A member's name cannot be joined onto the destination. -/
  | escape (f : EscapeFault)
  | corrupted (f : Tar.Fault)
  | extraction (path : Path) (cause : WriteFault)
  | directoryCreation (path : Path) (cause : FileFault)
  /-- The start of the stream cannot be read. -/
  | unreadable (f : StreamFault)
  deriving DecidableEq, Repr

namespace Fault

/-- The fault in words. -/
def message : Fault → String
  | .unsupported c => s!"unsupported compression: {c.name}"
  | .escape f => f.message
  | .corrupted f => s!"archive is corrupted: {f.message}"
  | .extraction path cause => s!"failed to extract '{path.display}': {cause.message}"
  | .directoryCreation path cause =>
    s!"failed to create directory: {path.display}: {cause.message}"
  | .unreadable f => f.message

/-- Whether the fault is an attempt to leave the destination. -/
def isSecurity : Fault → Bool
  | .escape f => f.isSecurity
  | _ => false

end Fault
end ImageBuild.Archive
