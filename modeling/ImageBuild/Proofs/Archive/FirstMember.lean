import ImageBuild.Proofs.Archive.Confinement
import ImageBuild.Proofs.Archive.Envelope
import ImageBuild.Proofs.Tar.FirstBlock

/-!
# `ImageBuild.Proofs.Archive.FirstMember`: the first member in the window and in the stream

`isArchive` looks at the first block of a stream and answers whether that alone has a member.
`StartsWith s m c` says that what is read of the whole stream starts with a member. This module
compares the two for streams that are not compressed:

* `exists_startsWith`: a member that the window shows is the first one of the stream, and nothing
  of it is different there.
* `isArchive_iff_not_goesOn`: of the streams that start with a member the window misses those
  whose first header does not describe it alone, and no others.

A run puts the first member and then the others (`extract_eq_putFrom`), and putting a member is
never refused as a corrupted stream (`putMember_ne_corrupted`).
-/

set_option autoImplicit false

namespace ImageBuild

/-! ### Headers of directories and files -/

/-- A header as archivers write it for a directory or a file describes its member alone. -/
theorem Tar.IsHeader.describes {block text : Bytes} {n : Node} (h : IsHeader block text n)
    (hsize : n.content.length < 8 ^ 11) :
    Describes ⟨block⟩ ⟨⟨text⟩, kindOf n, n.mode, n.content.length⟩ := by
  have hword : (8 : Nat) ^ 11 + 1024 < Text.wordLimit := by decide
  refine ⟨h.isZero_eq, h.contentSize_eq (by omega), ⟨?_, ?_⟩, h.isExtension_eq,
    fun hsparse => absurd hsparse h.typeFlag_ne_sparse, (h.memberOf_eq _).symm⟩
  · show n.content.length + (blockSize - 1) < Text.wordLimit
    unfold blockSize
    omega
  · show blockSize + Cursor.padded n.content.length < Text.wordLimit
    unfold Cursor.padded blockSize
    omega

namespace Archive

open Tar

variable {s : Stream} {m : Member} {c : Cursor} {block : Bytes} {destination : Path}

/-! ### The window -/

/-- Bytes that are no more than a block have a member exactly if they are one whose header
describes it. -/
theorem hasMember_iff (hlen : block.length ≤ headerWindow) :
    hasMember block = true ↔ block.length = headerWindow ∧ ∃ m, Describes ⟨block⟩ m := by
  have hfeed : Feed.ofStream (.ofBytes block) = .piece block false (.ended none false) := rfl
  -- Behind a block that is read from memory there is the end, without a fault.
  have hfound : hasMember block = true ↔
      ∃ m c, (Cursor.start (.piece block false (.ended none false))).nextMember =
        (.ok (some m), c) := by
    unfold hasMember
    rw [hfeed]
    rcases (Cursor.start (.piece block false (.ended none false))).nextMember with
      ⟨f | _ | m, c⟩ <;> simp
  rw [hfound]
  constructor
  · intro ⟨m, c, hnext⟩
    -- A member takes a block, and there is no more.
    have hsize := Cursor.size_next_lt hnext
    simp only [Cursor.start, Feed.size] at hsize
    have hblock : block.length = blockSize := Nat.le_antisymm hlen (by omega)
    exact ⟨hblock, (Cursor.exists_nextMember_block_iff (h := ⟨block⟩) hblock).mp ⟨m, c, hnext⟩⟩
  · rintro ⟨hblock, hdescribes⟩
    exact (Cursor.exists_nextMember_block_iff (h := ⟨block⟩) hblock).mpr hdescribes

/-- For a window that is not compressed the member decides. -/
theorem isArchive_iff_hasMember (hplain : detectCompression block = .none) :
    isArchive block = true ↔ hasMember block = true := by
  unfold isArchive
  rw [hplain]
  simp

/-! ### The stream -/

/-- What is read of the stream starts with this member, and behind its headers the cursor
stands. -/
def StartsWith (s : Stream) (m : Member) (c : Cursor) : Prop :=
  ∃ feed, opened s = .ok feed ∧ (Cursor.start feed).nextMember = (.ok (some m), c)

/-- A stream that is not compressed is read as it is, the window first. -/
theorem opened_of_plain {rest : Stream} {front : Bytes}
    (hread : s.readUpTo headerWindow = .ok (front, rest))
    (hplain : detectCompression front = .none) :
    opened s = .ok (.piece front false (.ofStream rest)) := by
  unfold opened
  rw [hread]
  dsimp only
  rw [hplain]
  rfl

section
variable (hplain : detectCompression (s.bytes.take headerWindow) = .none)
include hplain

/-- A stream that starts with a member has a whole block for its header. It is read as the window
first, and then what comes behind it. -/
theorem StartsWith.exists_window (h : StartsWith s m c) : ∃ rest,
    s.readUpTo headerWindow = .ok (s.bytes.take headerWindow, rest) ∧
      (s.bytes.take headerWindow).length = headerWindow ∧
      (Cursor.start (.piece (s.bytes.take headerWindow) false (.ofStream rest))).nextMember =
        (.ok (some m), c) := by
  obtain ⟨feed, hopen, hnext⟩ := h
  cases hread : s.readUpTo headerWindow with
  | error f =>
    unfold opened at hopen
    rw [hread] at hopen
    cases hopen
  | ok read =>
    obtain ⟨front, rest⟩ := read
    obtain ⟨rfl, -, hbytes⟩ := Stream.readUpTo_spec hread
    rw [opened_of_plain hread hplain] at hopen
    cases hopen
    refine ⟨rest, rfl, ?_, hnext⟩
    -- There is a whole block in the stream, since its first member was read from it.
    have hsize := Cursor.size_next_lt hnext
    have hall : (Cursor.start
        (.piece (s.bytes.take headerWindow) false (.ofStream rest))).feed.size =
        s.bytes.length := by
      rw [Feed.size_eq]
      exact congrArg List.length
        ((Feed.bytes_ofStream (rest.putBack (s.bytes.take headerWindow))).trans hbytes)
    rw [hall] at hsize
    exact length_window_iff.mpr (Nat.le_trans (Nat.le_add_left _ _) hsize)

/-- A member that the first header describes alone is the first one of the stream. -/
theorem exists_startsWith_of_describes (hlen : headerWindow ≤ s.bytes.length)
    (hdescribes : Describes ⟨s.bytes.take headerWindow⟩ m) : ∃ cursor, StartsWith s m cursor := by
  obtain ⟨rest, hread⟩ := Stream.exists_readUpTo hlen
  exact ⟨_, _, opened_of_plain hread hplain,
    (Cursor.nextMember_piece_iff (h := ⟨s.bytes.take headerWindow⟩) (length_window_iff.mpr hlen)
      hdescribes.not_goesOn).mpr ⟨hdescribes, rfl⟩⟩

/-- A member that the window shows is the first one of the stream. -/
theorem exists_startsWith (harchive : isArchive (s.bytes.take headerWindow) = true) :
    ∃ m window cursor,
      (Cursor.start (.ofStream (.ofBytes (s.bytes.take headerWindow)))).nextMember =
        (.ok (some m), window) ∧ StartsWith s m cursor := by
  obtain ⟨hlen, m, hdescribes⟩ := (hasMember_iff (List.length_take_le _ _)).mp
    ((isArchive_iff_hasMember hplain).mp harchive)
  -- The header describes the member alone, so what comes behind the block is not looked at.
  have hwindow : (Cursor.start (.ofStream (.ofBytes (s.bytes.take headerWindow)))).nextMember =
      (.ok (some m),
        ⟨.ended none false, blockSize, UInt64.ofNat (blockSize + Cursor.padded m.size)⟩) :=
    (Cursor.nextMember_piece_iff (h := ⟨s.bytes.take headerWindow⟩) hlen
      hdescribes.not_goesOn).mpr
      ⟨hdescribes, rfl⟩
  obtain ⟨cursor, hstarts⟩ :=
    exists_startsWith_of_describes hplain (length_window_iff.mp hlen) hdescribes
  exact ⟨m, _, cursor, hwindow, hstarts⟩

/-- A stream that starts with a member shows it in the window exactly if its first header does not
go on. -/
theorem isArchive_iff_not_goesOn (h : StartsWith s m c) :
    isArchive (s.bytes.take headerWindow) = true ↔ ¬ GoesOn ⟨s.bytes.take headerWindow⟩ := by
  obtain ⟨rest, -, hlen, hnext⟩ := h.exists_window hplain
  rw [isArchive_iff_hasMember hplain, hasMember_iff (Nat.le_of_eq hlen)]
  constructor
  · rintro ⟨-, m', hdescribes⟩
    exact hdescribes.not_goesOn
  · intro hgoes
    have hfirst :=
      (Cursor.nextMember_piece_iff (h := ⟨s.bytes.take headerWindow⟩) hlen hgoes).mp hnext
    exact ⟨hlen, m, hfirst.1⟩

end

/-- A stream that starts with the header of a directory or a file, as archivers write it, is an
archive that starts with that member, unless the name passes for an envelope. -/
theorem isArchive_of_isHeader {text : Bytes} {n : Node}
    (hheader : IsHeader (s.bytes.take headerWindow) text n) (hsize : n.content.length < 8 ^ 11)
    (hname : envelopeOfName text = .none) :
    detectCompression (s.bytes.take headerWindow) = .none ∧
      isArchive (s.bytes.take headerWindow) = true ∧
      ∃ cursor, StartsWith s ⟨⟨text⟩, kindOf n, n.mode, n.content.length⟩ cursor := by
  have hblock : (s.bytes.take headerWindow).length = headerWindow := hheader.length
  have hplain : detectCompression (s.bytes.take headerWindow) = .none := by
    rw [detectCompression_eq_envelopeOfName hblock, firstName, hheader.untilNul_eq]
    exact hname
  have hdescribes := hheader.describes hsize
  exact ⟨hplain, (isArchive_iff_hasMember hplain).mpr
    ((hasMember_iff (Nat.le_of_eq hblock)).mpr ⟨hblock, _, hdescribes⟩),
    exists_startsWith_of_describes hplain (length_window_iff.mp hblock) hdescribes⟩

/-- The stream of one directory is an archive that starts with it. -/
theorem isArchive_loneDirectory (name : Bytes) (hshort : name.length ≤ 100) (hnul : 0 ∉ name)
    (hname : envelopeOfName name = .none) :
    detectCompression ((loneDirectory name).bytes.take headerWindow) = .none ∧
      isArchive ((loneDirectory name).bytes.take headerWindow) = true ∧
      ∃ cursor, StartsWith (loneDirectory name) ⟨⟨name⟩, .directory, 0o755, 0⟩ cursor := by
  have hheader := isHeader_loneDirectory name hshort hnul
  obtain ⟨-, hwindow, -⟩ := window_loneDirectory name hshort hnul
  rw [← hwindow] at hheader
  exact isArchive_of_isHeader hheader (by decide) hname

/-! ### The run from the first member on -/

/-- Puts a member that was found, and then all further ones. -/
def putFrom (destination : Path) (m : Member) (r : Run) : Except Fault Report × FileTree :=
  match putMember destination r m with
  | (.error f, r') => (.error f, r'.tree)
  | (.ok (), r') => putMembers destination r'

/-- What is left of a run that finds a member is a run from that member on. -/
theorem putMembers_eq_putFrom {r : Run} (h : r.cursor.nextMember = (.ok (some m), c)) :
    putMembers destination r = putFrom destination m { r with cursor := c } := by
  rw [putMembers]
  split
  · next heq => rw [h] at heq; cases heq
  · next heq => rw [h] at heq; cases heq
  · next heq =>
    rw [h] at heq
    cases heq
    unfold putFrom
    split
    · next hput => rw [hput]
    · next hput => rw [hput]

/-- A run puts the member that the stream starts with, and then the others. -/
theorem extract_eq_putFrom (h : StartsWith s m c) (t : FileTree) (destination : Path) :
    extract t destination s = putFrom destination m ⟨t, c, .empty⟩ := by
  obtain ⟨feed, hopen, hnext⟩ := h
  have hrun : (Run.mk t (.start feed) .empty).cursor.nextMember = (.ok (some m), c) := hnext
  rw [extract_eq, hopen]
  dsimp only
  rw [← putMembers_eq_putFrom hrun, putMembers_eq]

/-- A directory fails only as a directory that could not be made. -/
theorem ensureDirectory_fault {t t' : FileTree} {p : Path} {f : Fault}
    (h : ensureDirectory t p = (.error f, t')) : ∃ cause, f = .directoryCreation p cause := by
  cases hthere : t.pathExists p with
  | true =>
    rw [ensureDirectory_of_pathExists hthere] at h
    cases h
  | false =>
    rw [ensureDirectory_of_missing hthere] at h
    cases hmade : (t.createAll p).1 with
    | ok => rw [hmade] at h; cases h
    | error cause =>
      rw [hmade] at h
      cases h
      exact ⟨cause, rfl⟩

/-- A file fails to open for the directory above it or for its own path. -/
theorem openTarget_fault {t t' : FileTree} {p : Path} {mode : Mode} {f : Fault}
    (h : openTarget t p mode = (.error f, t')) :
    (∃ up cause, f = .directoryCreation up cause) ∨ ∃ cause, f = .extraction p cause := by
  rw [openTarget_eq_ensureParent] at h
  rcases hparent : ensureParent t p with ⟨f₁ | _, t₁⟩ <;> rw [hparent] at h
  · cases h
    unfold ensureParent at hparent
    cases hup : p.parent? with
    | none => rw [hup] at hparent; cases hparent
    | some up =>
      rw [hup] at hparent
      obtain ⟨cause, hcause⟩ := ensureDirectory_fault hparent
      exact Or.inl ⟨up, cause, hcause⟩
  · dsimp only at h
    cases hempty : (t₁.openEmpty p mode).1 with
    | ok loc => rw [hempty] at h; cases h
    | error cause =>
      rw [hempty] at h
      cases h
      exact Or.inr ⟨_, rfl⟩

/-- Whatever keeps a member from being put, it is not that the stream is corrupted. -/
theorem putMember_ne_corrupted (destination : Path) (r : Run) (m : Member) (f : Tar.Fault) :
    (putMember destination r m).1 ≠ .error (.corrupted f) := by
  intro h
  unfold putMember at h
  -- A corrupted stream is found between members. Here the name is refused, or a directory, or a
  -- file with what it is filled with.
  cases hjoin : r.tree.joinWithin destination m.name with
  | error f' => rw [hjoin] at h; cases h
  | ok target =>
    rw [hjoin] at h
    dsimp only at h
    cases hkind : m.kind with
    | other => rw [hkind] at h; cases h
    | directory =>
      rw [hkind] at h
      dsimp only at h
      rcases hmade : ensureDirectory r.tree target with ⟨f' | _, t⟩ <;> rw [hmade]
        at h <;> cases h
      obtain ⟨cause, hcause⟩ := ensureDirectory_fault hmade
      cases hcause
    | file =>
      rw [hkind] at h
      dsimp only at h
      unfold writeFile at h
      rcases hopen : openTarget r.tree target m.mode with ⟨f' | loc, t⟩ <;> rw [hopen] at h
      · cases h
        rcases openTarget_fault hopen with ⟨up, cause, hcause⟩ | ⟨cause, hcause⟩ <;> cases hcause
      · dsimp only at h
        split at h <;> cases h

end Archive
end ImageBuild
