import ImageBuild.Tree.Lookup

/-!
# `ImageBuild.Tree.Start`: starting programs

The system runs a file if it is a native image, or a script whose interpreter it can run. A file
that is named by a path is run or not; for a bare name the directories of the search path are
tried in their order. There `startAmong` goes on past what is missing or forbidden and stops at
every other fault, and a directory that forbids the file weighs more than one that has nothing.
-/

set_option autoImplicit false

namespace ImageBuild

/-- How the system takes the content of a file that is to be run. -/
inductive ProgramImage
  | native
  /-- A text that the program at a path interprets. -/
  | script (interpreter : Path)
  | unknown
  deriving DecidableEq, Repr

namespace ProgramImage

/-- How much of a file is looked at to tell what it is. -/
def headLength : Nat := 256

/-- What a native image begins with. -/
def nativeMark : Bytes := [0x7F, 0x45, 0x4C, 0x46]

/-- How long an entry of the program table of a native image is. -/
def tableEntryLength : UInt8 := 56

/-- Whether a file is a native image: a program at a fixed or at any address, with a program
table. -/
def isNative (content : Bytes) : Bool :=
  nativeMark.isPrefixOf content && (content[16]? == some 2 || content[16]? == some 3) &&
    content[54]? == some tableEntryLength

/-- What a script begins with. -/
def scriptMark : Bytes := [0x23, 0x21]

/-- The blanks in the first line of a script. -/
def isLineBlank (b : UInt8) : Bool := b == 0x20 || b == 0x09

/-- The interpreter in the first line of a script, given what follows the mark. A name that
reaches the end of what is looked at may go on and counts for nothing; so does an empty line. -/
def interpreter? (line : Bytes) : Option Path :=
  let named := line.dropWhile isLineBlank
  let name := named.takeWhile fun b => !(isLineBlank b || b == 0x00 || b == 0x0A)
  match named.drop name.length with
  | [] => none
  | stop :: _ => if name.isEmpty && stop == 0x0A then none else some ⟨name⟩

/-- What a file is by its content; zeros stand for what a short file lacks. -/
def ofContent (content : Bytes) : ProgramImage :=
  if isNative content then .native
  else if scriptMark.isPrefixOf content then
    let head := content.take headLength
    match interpreter? ((head ++ List.replicate (headLength - head.length) 0x00).drop 2) with
    | some p => .script p
    | none => .unknown
  else .unknown

end ProgramImage

namespace FileTree

/-- How many files one start looks into: scripts, and the interpreter of the last of them. -/
def scriptDepth : Nat := 6

/-- The content of the file that a path leads to, if it may be run. -/
def programContent (t : FileTree) (p : Path) : Except FileFault Bytes :=
  match t.find true p with
  | .ok (_, .file m content) =>
    if (Node.file m []).executable then .ok content else .error .denied
  | .ok _ => .error .denied
  | .error fault => .error fault

/-- Why a file with this content cannot be run. An interpreter without a name is the working
directory, which is no program. -/
def imageFault? (t : FileTree) : (depth : Nat) → Bytes → Option FileFault
  | 0, _ => some .tooManyLinks
  | depth + 1, content =>
    match ProgramImage.ofContent content with
    | .native => none
    | .unknown => some .notAProgram
    | .script interpreter =>
      if interpreter.isEmpty then some .denied
      else
        match t.programContent interpreter with
        | .ok content => imageFault? t depth content
        | .error fault => some fault

/-- Why the file at a path cannot be started. -/
def runFault? (t : FileTree) (p : Path) : Option FileFault :=
  match t.programContent p with
  | .ok content => t.imageFault? scriptDepth content
  | .error fault => some fault

/-- Why none of some files can be started, given the fault of the file before them: the first of
them that can be decides, or one that is there and cannot. -/
def startAmong (t : FileTree) : (denied : Bool) → (last : FileFault) → List Path →
    Option FileFault
  | denied, last, [] => some (if denied then .denied else last)
  | denied, _, p :: rest =>
    match t.runFault? p with
    | none => none
    | some .denied => startAmong t true .denied rest
    | some .notFound => startAmong t denied .notFound rest
    | some .notADirectory => startAmong t denied .notADirectory rest
    | some fault => some fault

/-- Why a program cannot be started. -/
def startFault? (t : FileTree) (searchPath : String) (name : String) : Option FileFault :=
  let p := Path.ofString name
  if p.hasNul then some .nulInCommand
  else if p.isEmpty then some .notFound
  else if p.bytes.contains slash then t.runFault? p
  else t.startAmong false .notFound ((searchDirectories searchPath).map (·.join p))

end FileTree
end ImageBuild
