import ImageBuild.Tree.Basic
import ImageBuild.Tree.Fault

/-!
# `ImageBuild.Tree.Walk`: the ordinary path walk

How the operating system finds what a path names: name by name from the root or the working
directory, `..` to the parent of the directory reached, every link replaced by its target in the
directory that holds it. `FileTree.walk` ends at a node or at a vacant name in an existing
directory. At most `FileTree.linkBudget` links are followed, which is also why the walk ends.
-/

set_option autoImplicit false

namespace ImageBuild

/-- Where a walk ends. -/
inductive Spot
  | node (loc : Location) (n : Node)
  /-- Nothing has this name yet in an existing directory. -/
  | vacant (dir : Location) (name : Name)
  deriving Repr, DecidableEq

namespace FileTree

/-- How many links one walk follows. -/
def linkBudget : Nat := 40

/-- The longest name. -/
def nameLimit : Nat := 255

/-- The longest path text. -/
def pathLimit : Nat := 4095

/-- The segment behind a slash at the end. It asks for a directory and, other than `.`, for
nothing in it. -/
def trailing : Bytes := []

/-- The segments that a walk goes through. -/
def walkSegments (p : Path) : List Bytes :=
  p.segments.filter (fun s => !s.isEmpty) ++
    if p.bytes.getLast? == some slash then [trailing] else []

/-- Where the walk of a path starts. -/
def startOf (p : Path) (here : Location) : Location := if p.isAbsolute then [] else here

/-- Whether a directory is at a location. -/
def hasDirectory (t : FileTree) (loc : Location) : Bool :=
  match t.lookup loc with
  | some n => n.isDirectory
  | none => false

/-- Whether names can be looked up in the directory at a location. -/
def canSearch (t : FileTree) (loc : Location) : Bool :=
  match t.lookup loc with
  | some n => n.isDirectory && n.executable
  | none => false

/-- Whether names can be made and removed in the directory at a location. -/
def canAlter (t : FileTree) (loc : Location) : Bool :=
  match t.lookup loc with
  | some n => n.isDirectory && n.executable && n.writable
  | none => false

/-- Walks the segments from the directory `here`. A link at the very end is followed only if
`follow` says so. -/
def walkFrom (t : FileTree) (follow : Bool) :
    (links : Nat) → (here : Location) → List Bytes → Except FileFault Spot
  | _, here, [] => .ok (.node here ((t.lookup here).getD (.directory defaultMode)))
  | links, here, segment :: rest =>
    if segment = trailing then
      if t.hasDirectory here then walkFrom t follow links here rest else .error .notADirectory
    else if !t.canSearch here then .error .denied
    else if segment = dot then walkFrom t follow links here rest
    else if segment = dotDot then walkFrom t follow links here.dropLast rest
    else if nameLimit < segment.length then .error .nameTooLong
    else
      match t.lookup (here ++ [segment]) with
      | none => if rest.isEmpty then .ok (.vacant here segment) else .error .notFound
      | some (.directory _) => walkFrom t follow links (here ++ [segment]) rest
      | some (.file m content) =>
        if rest.isEmpty then .ok (.node (here ++ [segment]) (.file m content))
        else .error .notADirectory
      | some (.link target) =>
        if rest.isEmpty && !follow then .ok (.node (here ++ [segment]) (.link target))
        else
          match links with
          | 0 => .error .tooManyLinks
          | links + 1 =>
            walkFrom t follow links (startOf target here) (walkSegments target ++ rest)
  termination_by links _ segments => (links, segments.length)

/-- What is asked of a path text before it is walked. -/
def checkText (p : Path) : Except FileFault Unit :=
  if p.hasNul then .error .nulInPath
  else if p.isEmpty then .error .notFound
  else if pathLimit < p.bytes.length then .error .nameTooLong
  else .ok ()

/-- Where a path leads. -/
def walk (t : FileTree) (follow : Bool) (p : Path) : Except FileFault Spot := do
  checkText p
  t.walkFrom follow linkBudget (startOf p t.workdir) (walkSegments p)

/-- What a path names. -/
def find (t : FileTree) (follow : Bool) (p : Path) : Except FileFault (Location × Node) := do
  match ← t.walk follow p with
  | .node loc n => return (loc, n)
  | .vacant .. => throw .notFound

/-- Whether a path, links followed, names anything. -/
def pathExists (t : FileTree) (p : Path) : Bool := (t.find true p).isOk

/-- Whether a path, links followed, names a directory. -/
def isDirectory (t : FileTree) (p : Path) : Bool :=
  match t.find true p with
  | .ok (_, n) => n.isDirectory
  | .error _ => false

/-- Whether a path, links followed, names a regular file. -/
def isFile (t : FileTree) (p : Path) : Bool :=
  match t.find true p with
  | .ok (_, n) => n.isFile
  | .error _ => false

/-- The target of the link that a path names, if it names one. -/
def linkTarget? (t : FileTree) (p : Path) : Option Path :=
  match t.find false p with
  | .ok (_, .link target) => some target
  | _ => none

end FileTree
end ImageBuild
