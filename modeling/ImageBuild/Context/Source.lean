import ImageBuild.Archive.Fault

/-!
# `ImageBuild.Context.Source`: where recipe and build context come from

Both are named by a text of the command line. The text `-` means standard input, which can serve
one of them only.
-/

set_option autoImplicit false

namespace ImageBuild.Context

/-- The recipe that a build context is searched for when none is named. -/
def defaultRecipe : Name := Utf8.encode "Dockerfile"

/-- Where the recipe comes from. -/
inductive RecipeSource
  /-- The default recipe of the build context. -/
  | default
  | path (p : Path)
  | stdin
  deriving DecidableEq, Repr

/-- The source that a text names. -/
def RecipeSource.ofString : String → RecipeSource
  | "" => .default
  | "-" => .stdin
  | text => .path (Path.ofString text)

/-- Where the build context comes from. -/
inductive ContextSource
  | directory (p : Path)
  | stdin
  deriving DecidableEq, Repr

/-- What of a build is kept in temporary storage. -/
inductive StoredPart
  | contextDirectory
  | recipeFile
  deriving DecidableEq, Repr

/-- The part in words. -/
def StoredPart.label : StoredPart → String
  | .contextDirectory => "context directory"
  | .recipeFile => "file for recipe"

/-- Why sources cannot be made ready. -/
inductive Fault
  | missingContext
  | stdinConflict
  | notAnArchive
  | tempStorage (part : StoredPart) (path : Path) (cause : FileFault)
  /-- The start of a context stream cannot be read. -/
  | peek (cause : StreamFault)
  | read (cause : StreamFault)
  | write (path : Path) (cause : Archive.WriteFault)
  | archive (cause : Archive.Fault)
  deriving DecidableEq, Repr

/-- The fault in words. -/
def Fault.message : Fault → String
  | .missingContext => "please specify build context (e.g. \".\" for the current directory)"
  | .stdinConflict => "recipe and build context cannot both be read from stdin"
  | .notAnArchive => "build context is not an archive"
  | .tempStorage part path cause =>
    s!"unable to create temporary {part.label}: {cause.message} at path {path.quoted}"
  | .peek cause => s!"failed to peek context header from stdin: {cause.message}"
  | .read cause => s!"reading from stdin failed: {cause.message}"
  | .write path cause => s!"writing to '{path.display}' failed: {cause.message}"
  | .archive cause => s!"extracting build context failed: {cause.message}"

/-- The source that a text names. -/
def ContextSource.ofString : String → Except Fault ContextSource
  | "" => .error .missingContext
  | "-" => .ok .stdin
  | text => .ok (.directory (Path.ofString text))

end ImageBuild.Context
