import ImageBuild.Archive.Fault
import ImageBuild.Tree.Change

/-!
# `ImageBuild.Archive.Unpack`: unpacking an archive into a directory

`Archive.extract` reads a stream member by member and puts directories and regular files below
the destination. Each name is joined onto the destination before anything is touched, in the
tree as the members before left it, and the first one that would lead outside ends the run.
Directories that are there keep their mode; files are created or emptied and get the mode of
their member. What was done before a fault stays done.
-/

set_option autoImplicit false

namespace ImageBuild.Archive

/-- What one run did. -/
structure Report where
  directories : Nat
  files : Nat
  skipped : Nat
  bytesWritten : Nat
  deriving DecidableEq, Repr

namespace Report

/-- Nothing done yet. -/
def empty : Report := ⟨0, 0, 0, 0⟩

/-- How many members were met. -/
def entries (r : Report) : Nat := r.directories + r.files + r.skipped

end Report

/-- Makes a directory with all above it, unless something is there. -/
def ensureDirectory (t : FileTree) (p : Path) : Changed Fault Unit :=
  if t.pathExists p then (.ok (), t)
  else
    match t.createAll p with
    | (.ok (), t') => (.ok (), t')
    | (.error f, t') => (.error (.directoryCreation p f), t')

/-- Opens the file of a member, after making the directory it is in. -/
def openTarget (t : FileTree) (p : Path) (mode : Mode) : Changed Fault Location :=
  let parents : Changed Fault Unit :=
    match p.parent? with
    | some up => ensureDirectory t up
    | none => (.ok (), t)
  match parents with
  | (.error f, t₁) => (.error f, t₁)
  | (.ok (), t₁) =>
    match t₁.openEmpty p mode with
    | (.ok loc, t₂) => (.ok loc, t₂)
    | (.error f, t₂) => (.error (.extraction p (.file f)), t₂)

/-- A run at work: the tree, the place in the stream and what was done. -/
structure Run where
  tree : FileTree
  cursor : Tar.Cursor
  report : Report
  deriving Repr, DecidableEq

/-- Writes the content of a member to the file at `p`. The mode is set, and what was read is
kept, even if the content breaks off with a fault. -/
def writeFile (r : Run) (p : Path) (m : Tar.Member) : Except Fault Unit × Run :=
  match openTarget r.tree p m.mode with
  | (.error f, t) => (.error f, { r with tree := t })
  | (.ok loc, t) =>
    let (bytes, ending, cursor) := r.cursor.content m.size
    let tree := (t.fill loc bytes).changeMode loc m.mode
    match ending with
    | .failed f => (.error (.extraction p (.stream f)), { r with tree := tree, cursor := cursor })
    | _ =>
      (.ok (),
        { tree := tree
          cursor := cursor
          report :=
            { r.report with
              files := r.report.files + 1
              bytesWritten := r.report.bytesWritten + bytes.length } })

/-- Puts one member below the destination. -/
def putMember (destination : Path) (r : Run) (m : Tar.Member) : Except Fault Unit × Run :=
  match r.tree.joinWithin destination m.name with
  | .error f => (.error (.escape f), r)
  | .ok target =>
    match m.kind with
    | .directory =>
      match ensureDirectory r.tree target with
      | (.error f, t) => (.error f, { r with tree := t })
      | (.ok (), t) =>
        (.ok (),
          { r with
            tree := t
            report := { r.report with directories := r.report.directories + 1 } })
    | .file => writeFile r target m
    | .other => (.ok (), { r with report := { r.report with skipped := r.report.skipped + 1 } })

/-- Putting a member reads on in the stream and never back. -/
theorem size_putMember_le (destination : Path) (r : Run) (m : Tar.Member) :
    (putMember destination r m).2.cursor.feed.size ≤ r.cursor.feed.size := by
  have := Tar.Cursor.size_content m.size r.cursor
  unfold putMember writeFile
  repeat' split
  all_goals simp_all

/-- Puts all further members below the destination, up to the first fault. -/
def putMembers (destination : Path) (r : Run) : Except Fault Report × FileTree :=
  match _h : r.cursor.nextMember with
  | (.error f, _) => (.error (.corrupted f), r.tree)
  | (.ok none, _) => (.ok r.report, r.tree)
  | (.ok (some m), cursor) =>
    match _h₂ : putMember destination { r with cursor := cursor } m with
    | (.error f, r') => (.error f, r'.tree)
    | (.ok (), r') => putMembers destination r'
  termination_by r.cursor.feed.size
  decreasing_by
    have h₁ := Tar.Cursor.size_next_lt _h
    have h₂ := size_putMember_le destination { r with cursor := cursor } m
    rw [_h₂] at h₂
    simp only [Tar.blockSize] at *
    omega

/-- The decoded stream, or the fault that it cannot be decoded. -/
def decoded (s : Stream) (c : Compression) : Except Fault Feed :=
  match c with
  | .none => .ok (.ofStream s)
  | .gzip => .ok (Gzip.feed s)
  | other => .error (.unsupported other)

/-- Unpacks a tar stream, compressed or not, below the destination. -/
def extract (t : FileTree) (destination : Path) (s : Stream) : Changed Fault Report :=
  match s.readUpTo headerWindow with
  | .error f => (.error (.unreadable f), t)
  | .ok (front, rest) =>
    match decoded (rest.putBack front) (detectCompression front) with
    | .error f => (.error f, t)
    | .ok feed => putMembers destination ⟨t, .start feed, .empty⟩

end ImageBuild.Archive
