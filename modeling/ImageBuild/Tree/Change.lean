import ImageBuild.Tree.Walk

/-!
# `ImageBuild.Tree.Change`: making and filling directories and files

Operations that change the tree. Each one returns its outcome together with the tree it leaves,
because a failed operation may have done a part of its work: `createAll` keeps the ancestors
that it made.
-/

set_option autoImplicit false

namespace ImageBuild

/-- The outcome of an operation and the tree it leaves. -/
abbrev Changed (ε α : Type) := Except ε α × FileTree

namespace FileTree

/-- The bits that a new node never gets from the mode that was asked for. -/
def umask : Mode := 0o022

/-- The bit that a new directory takes over from the directory around it. -/
def groupBit : Mode := 0o2000

/-- The path without the slashes at its end. -/
def withoutTrailingSlash (p : Path) : Path :=
  let kept := (p.bytes.reverse.dropWhile (· == slash)).reverse
  if kept.isEmpty && !p.isEmpty then ⟨[slash]⟩ else ⟨kept⟩

/-- The mode of a new directory inside `dir`. -/
def newDirectoryMode (t : FileTree) (dir : Location) (asked : Mode) : Mode :=
  match t.lookup dir with
  | some n => (asked &&& ~~~umask) ||| (n.mode &&& groupBit)
  | none => asked &&& ~~~umask

/-- Makes one directory. -/
def makeDirectory (t : FileTree) (p : Path) (asked : Mode) : Changed FileFault Unit :=
  match checkText p with
  | .error e => (.error e, t)
  | .ok () =>
    match t.walk false (withoutTrailingSlash p) with
    | .error e => (.error e, t)
    | .ok (.node ..) => (.error .alreadyExists, t)
    | .ok (.vacant dir name) =>
      if t.canAlter dir then
        (.ok (), t.set (dir ++ [name]) (.directory (t.newDirectoryMode dir asked)))
      else (.error .denied, t)

/-- Makes one directory; one that is there already, also behind a link, will do. -/
def makeOrKeep (t : FileTree) (p : Path) : Changed FileFault Unit :=
  match t.makeDirectory p 0o777 with
  | (.ok (), t') => (.ok (), t')
  | (.error e, t') => if t.isDirectory p then (.ok (), t') else (.error e, t')

/-- Makes a directory after the directories above it, at most `depth` of them. -/
def createAncestors : (depth : Nat) → FileTree → Path → Changed FileFault Unit
  | 0, t, p => t.makeOrKeep p
  | depth + 1, t, p =>
    if p.isEmpty then (.ok (), t)
    else
      match t.makeOrKeep p with
      | (.error .notFound, t₁) =>
        match p.parent? with
        | none => (.error .notFound, t₁)
        | some up =>
          match createAncestors depth t₁ up with
          | (.error e, t₂) => (.error e, t₂)
          | (.ok (), t₂) => t₂.makeOrKeep p
      | done => done

/-- Makes a directory and all that is missing above it. The depth is no limit: a path has one
component more than its parent. -/
def createAll (t : FileTree) (p : Path) : Changed FileFault Unit :=
  createAncestors (p.components.length + 1) t p

/-- Opens a file for writing from its start: an existing one is emptied and keeps its mode, a new
one gets the mode that is asked for. Answers where the file is. -/
def openEmpty (t : FileTree) (p : Path) (asked : Mode) : Changed FileFault Location :=
  match checkText p with
  | .error e => (.error e, t)
  | .ok () =>
    if p.bytes.getLast? == some slash then
      -- A new file cannot be asked for as a directory, once the way to it exists.
      let segments := p.segments.filter fun s => !s.isEmpty
      match t.walkFrom true linkBudget (startOf p t.workdir) (segments.dropLast ++ [dot]) with
      | .error e => (.error e, t)
      | .ok _ => (.error .isADirectory, t)
    else
      match t.walk true p with
      | .error e => (.error e, t)
      | .ok (.node loc (.file m _)) =>
        if (Node.file m []).writable then (.ok loc, t.set loc (.file m []))
        else (.error .denied, t)
      | .ok (.node ..) => (.error .isADirectory, t)
      | .ok (.vacant dir name) =>
        if t.canAlter dir then
          (.ok (dir ++ [name]), t.set (dir ++ [name]) (.file (asked &&& ~~~umask) []))
        else (.error .denied, t)

/-- Gives the file at a location its content. -/
def fill (t : FileTree) (loc : Location) (content : Bytes) : FileTree :=
  match t.lookup loc with
  | some (.file m _) => t.set loc (.file m content)
  | _ => t

/-- Gives the file at a location its mode. -/
def changeMode (t : FileTree) (loc : Location) (m : Mode) : FileTree :=
  match t.lookup loc with
  | some (.file _ content) => t.set loc (.file m content)
  | _ => t

/-- Makes a new file that nobody else may read; a path that names anything already is refused. -/
def makeFile (t : FileTree) (p : Path) : Changed FileFault Unit :=
  match t.walk false p with
  | .error e => (.error e, t)
  | .ok (.node ..) => (.error .alreadyExists, t)
  | .ok (.vacant dir name) =>
    if t.canAlter dir then (.ok (), t.set (dir ++ [name]) (.file 0o600 []))
    else (.error .denied, t)

/-- Removes what a path names, with everything below it. A link is removed, not followed. -/
def remove (t : FileTree) (p : Path) : Changed FileFault Unit :=
  match t.find false p with
  | .error e => (.error e, t)
  | .ok (loc, _) =>
    if loc.isEmpty then (.error .denied, t)
    else if t.canAlter loc.dropLast then (.ok (), t.erase loc)
    else (.error .denied, t)

/-- The bytes of the file that a path names. -/
def contents (t : FileTree) (p : Path) : Except FileFault Bytes := do
  match ← t.find true p with
  | (_, .file m content) => if (Node.file m []).readable then return content else throw .denied
  | _ => throw .isADirectory

end FileTree
end ImageBuild
