import ImageBuild.Text.Utf8

/-!
# `ImageBuild.Path`: path texts and their components

A path is a byte string in which `/` separates names. Its meaning is its list of components:
repeated and trailing slashes and inner `.` say nothing, so `a//b/` and `a/./b` have the same
components. `Path.join`, `Path.parent?` and `Path.fileName?` work on the text and keep the
spelling of what they do not touch.
-/

set_option autoImplicit false

namespace ImageBuild

/-- One name in a directory: no slash, no NUL, not empty, neither `.` nor `..`. -/
abbrev Name := Bytes

/-- The byte that separates names. -/
def slash : UInt8 := 0x2F

/-- The segment `.`, which stays where it is. -/
def dot : Bytes := [0x2E]

/-- The segment `..`, which goes to the parent directory. -/
def dotDot : Bytes := [0x2E, 0x2E]

/-- A path as it is spelled. -/
structure Path where
  bytes : Bytes
  deriving DecidableEq, Repr, Inhabited

/-- A step of a path. -/
inductive Component
  /-- The leading slash of an absolute path. -/
  | root
  /-- A leading `.` of a relative path. -/
  | here
  /-- `..` -/
  | parent
  /-- An ordinary name. -/
  | normal (name : Name)
  deriving DecidableEq, Repr

/-- The spelling of a step. -/
def Component.bytes : Component → Bytes
  | .root => [slash]
  | .here => dot
  | .parent => dotDot
  | .normal name => name

namespace Path

/-- The path spelled by a text. -/
def ofString (s : String) : Path := ⟨Utf8.encode s⟩

/-- The path as text for messages: ill-formed stretches are shown as U+FFFD. -/
def display (p : Path) : String := Utf8.decodeLossy p.bytes

/-- The path in quotation marks, as messages about temporary storage show it. -/
def quoted (p : Path) : String :=
  let escape (c : Char) : List Char :=
    if c = '"' || c = '\'' || c = '\\' then ['\\', c]
    else if c = '\n' then ['\\', 'n']
    else if c = '\r' then ['\\', 'r']
    else if c = '\t' then ['\\', 't']
    else [c]
  String.ofList ('"' :: p.display.toList.flatMap escape ++ ['"'])

/-- Whether the path starts at the root. -/
def isAbsolute (p : Path) : Bool := p.bytes.head? == some slash

def isEmpty (p : Path) : Bool := p.bytes.isEmpty

/-- Whether a NUL byte, which no file name can hold, is in the path. -/
def hasNul (p : Path) : Bool := p.bytes.contains 0

/-- What stands between the slashes, empty stretches included. -/
def segments (p : Path) : List Bytes := p.bytes.splitOn slash

/-- Whether a segment after the first means a step: neither empty nor `.`. -/
def isStep (segment : Bytes) : Bool := !segment.isEmpty && segment != dot

/-- The component that a meaningful segment spells. -/
def componentOf (segment : Bytes) : Component :=
  if segment = dotDot then .parent else .normal segment

/-- The steps of a path: the root or a leading `.`, then `..` and names. -/
def components (p : Path) : List Component :=
  let leading : List Component :=
    if p.isAbsolute then [.root]
    else if p.segments.head? = some dot then [.here]
    else []
  leading ++ (p.segments.filter isStep).map componentOf

/-- `a.join b` is `b` seen from the directory `a`: `b` itself if it is absolute, else the two with
one slash between them, unless `a` is empty or ends in one. -/
def join (a b : Path) : Path :=
  if b.isAbsolute then b
  else if a.isEmpty || a.bytes.getLast? == some slash then ⟨a.bytes ++ b.bytes⟩
  else ⟨a.bytes ++ slash :: b.bytes⟩

/-- The relative path with these names. -/
def ofNames (names : List Name) : Path := ⟨[slash].intercalate names⟩

/-- The segments without those at the end that mean no step. -/
def trimSegments (segments : List Bytes) : List Bytes :=
  (segments.reverse.dropWhile fun s => !isStep s).reverse

/-- The path without its last component; none for the empty path and for the root. -/
def parent? (p : Path) : Option Path :=
  match p.segments with
  | [] => none
  | first :: rest =>
    match trimSegments rest with
    | [] => if first.isEmpty then none else some ⟨[]⟩
    | steps =>
      match trimSegments steps.dropLast with
      | [] => if first.isEmpty then (if p.isAbsolute then some ⟨[slash]⟩ else some ⟨[]⟩)
              else some ⟨first⟩
      | kept => some ⟨[slash].intercalate (first :: kept)⟩

/-- The last component, if it is an ordinary name. -/
def fileName? (p : Path) : Option Name :=
  match p.components.getLast? with
  | some (.normal name) => some name
  | _ => none

end Path
end ImageBuild
