import ImageBuild.Tree.Walk

/-!
# `ImageBuild.Tree.Lookup`: finding programs

A program that is named without a directory is looked up in a list of directories. `findProgram?`
answers the first regular, executable file.
-/

set_option autoImplicit false

namespace ImageBuild

/-- The byte between the directories of a search path. -/
def colon : UInt8 := 0x3A

/-- The directories of a search path. -/
def searchDirectories (searchPath : String) : List Path :=
  ((Utf8.encode searchPath).splitOn colon).map Path.mk

namespace FileTree

/-- Whether a path leads to a regular file that may be run. -/
def isProgram (t : FileTree) (p : Path) : Bool :=
  match t.find true p with
  | .ok (_, .file m _) => (Node.file m []).executable
  | _ => false

/-- A directory of a search path, in which `~` stands for the home directory. -/
def expandHome (home : String) (dir : Path) : Path :=
  match dir.components with
  | .normal [0x7E] :: rest => rest.foldl (fun p c => p.join ⟨c.bytes⟩) (Path.ofString home)
  | _ => dir

/-- A relative path from the directory at hand, without leading dots. -/
def fromHere (t : FileTree) (p : Path) : Path :=
  if p.isAbsolute then p
  else
    let here : Path := ⟨slash :: (Path.ofNames t.workdir).bytes⟩
    (p.components.dropWhile (· == .here)).foldl (fun q c => q.join ⟨c.bytes⟩) here

/-- The paths at which a program of this name may be. -/
def programPaths (t : FileTree) (searchPath : String) (home : String) (name : Path) :
    List Path :=
  if 1 < name.components.length then [t.fromHere name]
  else (searchDirectories searchPath).map fun dir => (expandHome home dir).join name

/-- The program that a name stands for. -/
def findProgram? (t : FileTree) (searchPath : String) (home : String) (name : Path) :
    Option Path :=
  (t.programPaths searchPath home name).find? t.isProgram

end FileTree
end ImageBuild
