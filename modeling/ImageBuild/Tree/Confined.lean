import ImageBuild.Tree.Walk

/-!
# `ImageBuild.Tree.Confined`: joining a foreign path onto a root

`FileTree.joinWithin t root entry` turns a path from outside into one below `root` that no link
leads away from. It is resolved component by component; the links that exist below `root` are
followed inside `root`. Whatever would leave the root, an absolute path, a `..` too many or an
absolute link target, is refused rather than clamped.

The pending parts and the place reached are separate arguments of `resolve`. Every step either
uses up one pending part or spends one of the `hopLimit` links, so the resolution ends on every
tree, cyclic links included.
-/

set_option autoImplicit false

namespace ImageBuild

/-- Why a path cannot be joined onto a root. -/
inductive EscapeFault
  /-- The path holds a NUL byte. -/
  | nul
  /-- The path itself is absolute or climbs above the root. -/
  | pathEscape (entry root : Path)
  /-- A `..` in the target of a link climbs above the root. -/
  | linkEscape (link target : Path)
  | absoluteTarget (target link : Path)
  /-- The path leads over more than `hopLimit` links. -/
  | linkLoop (entry : Path)
  deriving DecidableEq, Repr

namespace EscapeFault

/-- The fault in words. -/
def message : EscapeFault → String
  | .nul => "entry path contains null byte"
  | .pathEscape entry root =>
    s!"path escapes root: '{entry.display}' is not within '{root.display}'"
  | .linkEscape link target => s!"symlink escapes root: '{link.display}' -> '{target.display}'"
  | .absoluteTarget target link =>
    s!"symlink target is absolute path: '{target.display}' in '{link.display}'"
  | .linkLoop entry => s!"too many levels of symbolic links resolving '{entry.display}'"

/-- Whether the fault is an attempt to leave the root. -/
def isSecurity : EscapeFault → Bool
  | .nul => false
  | _ => true

end EscapeFault

/-- A step that is still to be made below the root. -/
inductive PendingPart
  /-- `..`, with the link and target that it was spelled in, if it came from a link. -/
  | up (origin : Option (Path × Path))
  | down (name : Name)
  deriving DecidableEq, Repr

namespace PendingPart

/-- The steps that a component of a relative path asks for. -/
def ofComponent (origin : Option (Path × Path)) : Component → List PendingPart
  | .parent => [.up origin]
  | .normal name => [.down name]
  | .root | .here => []

/-- The steps that a relative path asks for. -/
def ofPath (origin : Option (Path × Path)) (p : Path) : List PendingPart :=
  p.components.flatMap (ofComponent origin)

end PendingPart

namespace FileTree

/-- How many links the resolution of one path follows. -/
def hopLimit : Nat := 255

/-- The path of `name` in the directory that `resolved` names below `root`. -/
def candidate (root : Path) (resolved : List Name) (name : Name) : Path :=
  (root.join (Path.ofNames resolved)).join ⟨name⟩

/-- Makes the pending steps from the place `resolved` below `root`, with `hops` links left. -/
def resolve (t : FileTree) (root entry : Path) :
    (hops : Nat) → (resolved : List Name) → List PendingPart → Except EscapeFault (List Name)
  | _, resolved, [] => .ok resolved
  | hops, resolved, .up origin :: rest =>
    if resolved.isEmpty then
      match origin with
      | some (link, target) => .error (.linkEscape link target)
      | none => .error (.pathEscape entry root)
    else resolve t root entry hops resolved.dropLast rest
  | hops, resolved, .down name :: rest =>
    match t.linkTarget? (candidate root resolved name) with
    | none => resolve t root entry hops (resolved ++ [name]) rest
    | some target =>
      match hops with
      | 0 => .error (.linkLoop entry)
      | hops + 1 =>
        if target.isAbsolute then .error (.absoluteTarget target (candidate root resolved name))
        else
          let origin := some (candidate root resolved name, target)
          resolve t root entry hops resolved (PendingPart.ofPath origin target ++ rest)
  termination_by hops _ pending => (hops, pending.length)

/-- The names below `root` that the path `entry` leads to inside `root`. -/
def resolveWithin (t : FileTree) (root entry : Path) : Except EscapeFault (List Name) :=
  if entry.hasNul then .error .nul
  else if entry.isAbsolute then .error (.pathEscape entry root)
  else t.resolve root entry hopLimit [] (PendingPart.ofPath none entry)

/-- The path below `root` that the path `entry` leads to inside `root`. -/
def joinWithin (t : FileTree) (root entry : Path) : Except EscapeFault Path :=
  (t.resolveWithin root entry).map fun names => root.join (Path.ofNames names)

end FileTree
end ImageBuild
