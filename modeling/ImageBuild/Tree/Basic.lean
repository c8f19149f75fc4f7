import ImageBuild.Path

/-!
# `ImageBuild.Tree.Basic`: file trees

A file tree is a finite map from locations to directories, regular files and symbolic links. A
location is the list of names from the root, with every link already followed, so two locations
are one place only if they are equal. The root is always a directory. `FileTree.lookup` is the
view in which every operation is described: `lookup_set`, `lookup_erase`.
-/

set_option autoImplicit false

namespace ImageBuild

/-- Permission bits, with the set-id and sticky bits above them. -/
abbrev Mode := BitVec 12

/-- A place in the tree: the names from the root. -/
abbrev Location := List Name

/-- What can be at a location. -/
inductive Node
  | directory (mode : Mode)
  | file (mode : Mode) (content : Bytes)
  | link (target : Path)
  deriving DecidableEq, Repr

namespace Node

def isDirectory : Node → Bool
  | .directory _ => true
  | _ => false

def isFile : Node → Bool
  | .file .. => true
  | _ => false

def isLink : Node → Bool
  | .link _ => true
  | _ => false

/-- The permission bits; a link has all of them. -/
def mode : Node → Mode
  | .directory m => m
  | .file m _ => m
  | .link _ => 0o777

/-- Whether the owner may read. -/
def readable (n : Node) : Bool := n.mode.getLsbD 8

/-- Whether the owner may write. -/
def writable (n : Node) : Bool := n.mode.getLsbD 7

/-- Whether the owner may run the file or look up names in the directory. -/
def executable (n : Node) : Bool := n.mode.getLsbD 6

end Node

/-- A tree of files, as one process sees it: everything in it belongs to that process's user, and
`workdir` is where relative paths start. -/
structure FileTree where
  nodes : List (Location × Node)
  workdir : Location
  deriving Repr, DecidableEq

namespace FileTree

/-- The mode of the root, and of every directory that is made: `0777` less the usual mask. -/
def defaultMode : Mode := 0o755

/-- What is at a location. -/
def lookup (t : FileTree) : Location → Option Node
  | [] => some (.directory defaultMode)
  | loc => (t.nodes.find? fun entry => entry.1 == loc).map (·.2)

/-- Puts a node at a location below the root, in place of what was there. -/
def set (t : FileTree) (loc : Location) (n : Node) : FileTree :=
  { t with nodes := (loc, n) :: t.nodes.filter fun entry => entry.1 != loc }

/-- Removes a location with everything below it. -/
def erase (t : FileTree) (loc : Location) : FileTree :=
  { t with nodes := t.nodes.filter fun entry => !loc.isPrefixOf entry.1 }

/-- The entries below a location, with their names from there. -/
def below (t : FileTree) (loc : Location) : List (List Name × Node) :=
  t.nodes.filterMap fun entry =>
    if loc.isPrefixOf entry.1 && entry.1 != loc then some (entry.1.drop loc.length, entry.2)
    else none

/-- The root is a directory of every tree. -/
@[simp] theorem lookup_nil (t : FileTree) : t.lookup [] = some (.directory defaultMode) := rfl

/-- After `set` the location holds the new node and every other location what it held. -/
theorem lookup_set (t : FileTree) (loc : Location) (n : Node) (h : loc ≠ []) (other : Location) :
    (t.set loc n).lookup other = if other = loc then some n else t.lookup other := by
  cases other with
  | nil => simp [lookup, h.symm]
  | cons a rest =>
    by_cases e : a :: rest = loc
    · subst e; simp [lookup, set]
    · have hne : (loc == a :: rest) = false := by
        simpa using fun hh : loc = a :: rest => e hh.symm
      simp only [lookup, set, List.find?_cons, hne, if_neg e, List.find?_filter]
      congr 2
      funext entry
      by_cases h2 : entry.1 = a :: rest
      · simp [h2, e]
      · simp [h2]

/-- After `erase` nothing is left at or below the location, and the rest is as before. -/
theorem lookup_erase (t : FileTree) (loc : Location) (other : Location) (h : other ≠ []) :
    (t.erase loc).lookup other = if loc <+: other then none else t.lookup other := by
  cases other with
  | nil => exact absurd rfl h
  | cons a rest =>
    simp only [lookup, erase, List.find?_filter]
    by_cases e : loc <+: a :: rest
    · have hp : loc.isPrefixOf (a :: rest) = true := List.isPrefixOf_iff_prefix.2 e
      rw [if_pos e]
      simp only [Option.map_eq_none_iff, List.find?_eq_none]
      intro entry _ hentry
      by_cases h2 : entry.1 = a :: rest
      · simp [h2, hp] at hentry
      · simp [h2] at hentry
    · have hp : loc.isPrefixOf (a :: rest) = false := by
        rw [← Bool.not_eq_true, List.isPrefixOf_iff_prefix]; exact e
      rw [if_neg e]
      congr 2
      funext entry
      by_cases h2 : entry.1 = a :: rest
      · simp [h2, hp]
      · simp [h2]

end FileTree
end ImageBuild
