import ImageBuild.Tar.Pax
import ImageBuild.Tar.Sparse

/-!
# `ImageBuild.Tar.Member`: the members of a tar stream

`Cursor.next` reads on to the next member: it skips what is left of the one before, takes in the
extension members that describe the next one, and stops where its content begins.
`Cursor.content` then reads that content, as far as it is there.

Where the next header starts is counted in a word of 64 bits, `Cursor.target`. A size that does
not fit the word, rounded up or added to it, is a fault. A block is counted without such a guard:
behind a header the word has just been reached, but the blocks of a sparse map come behind a size
that was added before, and there the word may wrap around. How far away the next header is, is the
difference of two words and does not change by that. `Cursor.next` is the place where it starts in
the stream.

Every step reads at least one block, so the steps end with the stream (`size_next_lt`).
-/

set_option autoImplicit false

namespace ImageBuild.Tar

/-- What a member turns into. -/
inductive MemberKind
  | directory
  | file
  /-- A link, device or extension, which is not unpacked. -/
  | other
  deriving DecidableEq, Repr

/-- A member as its headers describe it. -/
structure Member where
  name : Path
  kind : MemberKind
  mode : Mode
  size : Nat
  deriving DecidableEq, Repr

/-- A place in a tar stream. -/
structure Cursor where
  feed : Feed
  /-- How many bytes were read. -/
  position : Nat
  /-- Where the next header starts, as a word counts it. -/
  target : UInt64
  deriving Repr, DecidableEq

/-- What extension members say about the member after them. -/
structure Extensions where
  longName : Option Bytes
  longLink : Option Bytes
  pax : Option Bytes
  deriving Repr, DecidableEq

namespace Extensions

/-- Nothing said. -/
def none : Extensions := ⟨.none, .none, .none⟩

/-- Whether anything was said. -/
def any (e : Extensions) : Bool := e.longName.isSome || e.longLink.isSome || e.pax.isSome

/-- The size that replaces the header's. -/
def size? (e : Extensions) : Option Nat := e.pax.bind PaxRecord.size?

/-- The name of the member: the long name without its final NUL, else the pax path, else what the
header says. -/
def nameOf (e : Extensions) (h : Header) : Bytes :=
  match e.longName with
  | some name => if name.getLast? == some 0 then name.dropLast else name
  | .none => (e.pax.bind PaxRecord.path?).getD h.name

end Extensions

namespace Cursor

/-- The start of a stream. -/
def start (feed : Feed) : Cursor := ⟨feed, 0, 0⟩

/-- How much is asked for at a time when content is copied. -/
def copyUnit : Nat := 8192

/-- How much is asked for at a time when bytes are skipped. -/
def skipUnit : Nat := 32768

/-- Reads up to `n` bytes. -/
def take (unit n : Nat) (c : Cursor) : Bytes × Ending × Cursor :=
  let (bytes, ending, feed) := c.feed.readUpTo unit n
  (bytes, ending, { c with feed := feed, position := c.position + bytes.length })

/-- What is taken is no longer in the feed. -/
theorem size_take (unit n : Nat) (c : Cursor) :
    (c.take unit n).2.2.feed.size + (c.take unit n).1.length ≤ c.feed.size :=
  Feed.size_readUpTo unit n c.feed

/-- How far away the next header is. -/
def ahead (c : Cursor) : Nat := (c.target - UInt64.ofNat c.position).toNat

/-- Where the next header starts. -/
def next (c : Cursor) : Nat := c.position + c.ahead

/-- Skips to where the next header starts. -/
def skip (c : Cursor) : Except Fault Unit × Cursor :=
  match c.take skipUnit c.ahead with
  | (_, .full, c') => (.ok (), c')
  | (_, .short, c') => (.error .endInSkip, c')
  | (_, .failed f, c') => (.error (.stream f), c')

/-- Skipping leaves no more than there was. -/
theorem size_skip (c : Cursor) : c.skip.2.feed.size ≤ c.feed.size := by
  have hsize := size_take skipUnit c.ahead c
  unfold skip
  rcases htake : c.take skipUnit c.ahead with ⟨bytes, ending, c'⟩
  rw [htake] at hsize
  cases ending with
  | full | short | failed => exact Nat.le_trans (Nat.le_add_right _ _) hsize

/-- Reads one block, or finds the end of the stream before it. -/
def readBlock (c : Cursor) : Except Fault (Option Bytes) × Cursor :=
  match c.take blockSize blockSize with
  | (block, .full, c') => (.ok (some block), c')
  | ([], .short, c') => (.ok none, c')
  | (_, .short, c') => (.error .partialBlock, c')
  | (_, .failed f, c') => (.error (.stream f), c')

/-- Reading a block leaves no more than there was. -/
theorem size_readBlock_le (c : Cursor) : c.readBlock.2.feed.size ≤ c.feed.size := by
  have hsize := size_take blockSize blockSize c
  unfold readBlock
  rcases htake : c.take blockSize blockSize with ⟨bytes, ending, c'⟩
  rw [htake] at hsize
  have hle := Nat.le_trans (Nat.le_add_right _ _) hsize
  cases ending with
  | full | failed => exact hle
  | short =>
    cases bytes with
    | nil | cons => exact hle

/-- A block that was read is gone from the feed. -/
theorem size_readBlock_lt (c : Cursor) {block : Bytes} {c' : Cursor}
    (h : c.readBlock = (.ok (some block), c')) : c'.feed.size + blockSize ≤ c.feed.size := by
  have hsize := size_take blockSize blockSize c
  have hlength : (c.take blockSize blockSize).2.1 = .full →
      blockSize ≤ (c.take blockSize blockSize).1.length :=
    Feed.length_readUpTo_of_full blockSize blockSize c.feed
  unfold readBlock at h
  rcases htake : c.take blockSize blockSize with ⟨bytes, ending, c''⟩
  rw [htake] at h hsize hlength
  cases ending with
  | full =>
    cases h
    exact Nat.le_trans (Nat.add_le_add_left (hlength rfl) _) hsize
  | failed => cases h
  | short =>
    cases bytes with
    | nil | cons => cases h

/-- Rounds a size up to whole blocks. -/
def padded (size : Nat) : Nat := (size + (blockSize - 1)) / blockSize * blockSize

/-- Moves the start of the next header behind one more block. A word that cannot hold the sum
wraps around. -/
@[irreducible]
def countBlock (c : Cursor) : Cursor := { c with target := c.target + UInt64.ofNat blockSize }

/-- Counting a block reads nothing. -/
@[simp]
theorem feed_countBlock (c : Cursor) : c.countBlock.feed = c.feed := by rw [countBlock]

/-- Counting a block does not move the position. -/
@[simp]
theorem position_countBlock (c : Cursor) : c.countBlock.position = c.position := by
  rw [countBlock]

/-- Moves the start of the next header behind content of this size, if a word can hold the sum. -/
def advance (size : Nat) (c : Cursor) : Except Fault Cursor :=
  if Text.wordLimit ≤ size + (blockSize - 1) then .error .sizeOverflow
  else if Text.wordLimit ≤ c.target.toNat + padded size then .error .sizeOverflow
  else .ok { c with target := c.target + UInt64.ofNat (padded size) }

/-- Setting the next position reads nothing. -/
theorem feed_advance {size : Nat} {c c' : Cursor} (h : c.advance size = .ok c') :
    c'.feed = c.feed := by
  unfold advance at h
  split at h
  · cases h
  · split at h
    · cases h
    · cases h; rfl

/-- Whether a header is an extension member's, which only the newer layouts have. -/
def isExtension (h : Header) : Bool :=
  h.format != .old &&
    (h.typeFlag == .longName || h.typeFlag == .longLink || h.typeFlag == .pax)

/-- Whether the type byte is one of those with which some layout says something about other
members. -/
def saysOfOthers : TypeFlag → Bool
  | .longName | .longLink | .pax | .globalPax => true
  | .regular | .directory | .sparse | .other => false

/-- What the header in a block says about the size of its content. The size from a pax record
counts only for members whose type byte says nothing of others, and the header's has to be
readable all the same. -/
def contentSize (h : Header) (said : Extensions) : Except Fault Nat := do
  let stored ← h.storedChecksum
  if stored ≠ h.checksum then throw .checksumMismatch
  let size ← h.size
  return if saysOfOthers h.typeFlag then size else said.size?.getD size

/-- Reads the next header, and the size of its content. -/
def header (said : Extensions) (c : Cursor) : Except Fault (Option (Header × Nat)) × Cursor :=
  match c.skip with
  | (.error f, c₁) => (.error f, c₁)
  | (.ok (), c₁) =>
    match c₁.readBlock with
    | (.error f, c₂) => (.error f, c₂)
    | (.ok none, c₂) => (.ok none, c₂)
    | (.ok (some block), c₂) =>
      if (Header.mk block).isZero then (.ok none, c₂)
      else
        match contentSize ⟨block⟩ said with
        | .error f => (.error f, c₂.countBlock)
        | .ok size =>
          match c₂.countBlock.advance size with
          | .error f => (.error f, c₂.countBlock)
          | .ok c₃ => (.ok (some (⟨block⟩, size)), c₃)

/-- Reading a header takes a block from the feed. -/
theorem size_header_lt {said : Extensions} {c c' : Cursor} {found : Header × Nat}
    (h : c.header said = (.ok (some found), c')) : c'.feed.size + blockSize ≤ c.feed.size := by
  have hsize := size_skip c
  unfold header at h
  rcases hskip : c.skip with ⟨f | ⟨⟩, c₁⟩
  · rw [hskip] at h
    cases h
  · rw [hskip] at h hsize
    dsimp only at h hsize
    rcases hblock : c₁.readBlock with ⟨f | _ | block, c₂⟩
    · rw [hblock] at h
      cases h
    · rw [hblock] at h
      cases h
    · -- The block of the header has been taken, and nothing behind it is read.
      have hread := size_readBlock_lt c₁ hblock
      rw [hblock] at h
      dsimp only at h
      split at h
      · cases h
      cases hcontent : contentSize ⟨block⟩ said with
      | error f =>
        rw [hcontent] at h
        cases h
      | ok size =>
        rw [hcontent] at h
        dsimp only at h
        cases hadvance : advance size c₂.countBlock with
        | error f =>
          rw [hadvance] at h
          cases h
        | ok c₃ =>
          rw [hadvance] at h
          cases h
          rw [feed_advance hadvance, feed_countBlock]
          omega

/-- The data of an extension member, as far as it is there. -/
def extensionData (size : Nat) (c : Cursor) : Except Fault Bytes × Cursor :=
  match c.take copyUnit size with
  | (_, .failed f, c') => (.error (.stream f), c')
  | (data, _, c') => (.ok data, c')

/-- Reading the data of an extension member leaves no more than there was. -/
theorem size_extensionData (size : Nat) (c : Cursor) :
    (c.extensionData size).2.feed.size ≤ c.feed.size := by
  have hsize := size_take copyUnit size c
  unfold extensionData
  rcases htake : c.take copyUnit size with ⟨data, ending, c'⟩
  rw [htake] at hsize
  cases ending with
  | full | short | failed => exact Nat.le_trans (Nat.le_add_right _ _) hsize

/-- Adds the data of an extension member to what was said before; nothing may be said twice. -/
def say (flag : TypeFlag) (data : Bytes) (said : Extensions) : Extensions :=
  match flag with
  | .longName => { said with longName := some data }
  | .longLink => { said with longLink := some data }
  | _ => { said with pax := some data }

/-- The fault of an extension that was there before. -/
def repeated? (flag : TypeFlag) (said : Extensions) : Option Fault :=
  match flag with
  | .longName => if said.longName.isSome then some .repeatedLongName else none
  | .longLink => if said.longLink.isSome then some .repeatedLongName else none
  | _ => if said.pax.isSome then some .repeatedPax else none

/-- Reads extension blocks of a sparse map while one is announced. -/
def sparseExtensions (m : SparseMap) (c : Cursor) : Except Fault SparseMap × Cursor :=
  match _h : c.readBlock with
  | (.error f, c') => (.error f, c')
  | (.ok none, c') => (.error .sparseExtension, c')
  | (.ok (some block), c') =>
    match m.addExtension block with
    | .error f => (.error f, c'.countBlock)
    | .ok m =>
      if SparseMap.extensionContinues block then sparseExtensions m c'.countBlock
      else (.ok m, c'.countBlock)
  termination_by c.feed.size
  decreasing_by
    have := size_readBlock_lt c _h
    simp only [blockSize, feed_countBlock] at *
    omega

/-- Reads the map of a sparse member, which has to be consistent. -/
def sparseMap (h : Header) (size : Nat) (c : Cursor) : Except Fault Unit × Cursor :=
  if h.format ≠ .gnu then (.error .sparseHeader, c)
  else
    match (SparseMap.mk size 0 size).addHeader h with
    | .error f => (.error f, c)
    | .ok m =>
      match if SparseMap.headerContinues h then sparseExtensions m c else (.ok m, c) with
      | (.error f, c') => (.error f, c')
      | (.ok m, c') => (m.check h, c')

/-- The member that a header and the extensions before it describe. -/
def memberOf (h : Header) (size : Nat) (said : Extensions) : Member where
  name := ⟨said.nameOf h⟩
  kind :=
    match h.typeFlag with
    | .directory => .directory
    | .regular => .file
    | _ => .other
  mode := h.mode
  size := size

/-- Reads on to the next member, after extensions that said something about it. -/
def nextAfter (said : Extensions) (c : Cursor) : Except Fault (Option Member) × Cursor :=
  match _h : c.header said with
  | (.error f, c₁) => (.error f, c₁)
  | (.ok none, c₁) => (if said.any then .error .missingMember else .ok none, c₁)
  | (.ok (some (h, size)), c₁) =>
    if isExtension h then
      match repeated? h.typeFlag said with
      | some f => (.error f, c₁)
      | none =>
        match _h₂ : c₁.extensionData size with
        | (.error f, c₂) => (.error f, c₂)
        | (.ok data, c₂) => nextAfter (say h.typeFlag data said) c₂
    else if h.typeFlag = .sparse then
      match c₁.sparseMap h size with
      | (.error f, c₂) => (.error f, c₂)
      | (.ok (), c₂) => (.ok (some (memberOf h size said)), c₂)
    else (.ok (some (memberOf h size said)), c₁)
  termination_by c.feed.size
  decreasing_by
    have h₁ := size_header_lt _h
    have h₂ := size_extensionData size c₁
    rw [_h₂] at h₂
    simp only [blockSize] at *
    omega

/-- Reading the extension blocks of a sparse map leaves no more than there was. -/
theorem size_sparseExtensions_le (m : SparseMap) (c : Cursor) :
    (sparseExtensions m c).2.feed.size ≤ c.feed.size := by
  fun_induction sparseExtensions m c with
  | case1 m c f c' h => simpa [h] using size_readBlock_le c
  | case2 m c c' h => simpa [h] using size_readBlock_le c
  | case3 m c block c' h f hadd => simpa [h] using size_readBlock_le c
  | case4 m c block c' h m' hadd hmore ih =>
    have hsize := size_readBlock_le c
    rw [h] at hsize
    rw [feed_countBlock] at ih
    exact Nat.le_trans ih hsize
  | case5 m c block c' h m' hadd hmore => simpa [h] using size_readBlock_le c

/-- Reading a sparse map leaves no more than there was. -/
theorem size_sparseMap_le (h : Header) (size : Nat) (c : Cursor) :
    (sparseMap h size c).2.feed.size ≤ c.feed.size := by
  unfold sparseMap
  split
  · simp
  · split
    · simp
    · next m _ =>
      have := size_sparseExtensions_le m c
      split <;> next heq => split at heq <;> simp_all

/-- A member that was found is at least a block behind the place before. -/
theorem size_nextAfter_lt (said : Extensions) (c : Cursor) {m : Member} {c' : Cursor}
    (h : c.nextAfter said = (.ok (some m), c')) : c'.feed.size + blockSize ≤ c.feed.size := by
  -- On the search itself. Only the exits with a member are possible.
  induction said, c using nextAfter.induct with
  | case1 said c f c₁ heq => rw [nextAfter, heq] at h; simp at h
  | case2 said c c₁ heq => rw [nextAfter, heq] at h; simp only at h; split at h <;> simp at h
  | case3 said c hd size c₁ heq hext f hrep =>
    rw [nextAfter, heq] at h; simp [hext, hrep] at h
  | case4 said c hd size c₁ heq hext hrep f c₂ heq₂ =>
    rw [nextAfter, heq] at h; simp only [hext, if_true, hrep] at h
    split at h <;> simp_all
  | case5 said c hd size c₁ heq hext hrep data c₂ heq₂ ih =>
    have h₁ := size_header_lt heq
    have h₂ := size_extensionData size c₁
    rw [heq₂] at h₂
    rw [nextAfter, heq] at h
    simp only [hext, if_true, hrep] at h
    rw [heq₂] at h
    have hrest := ih h
    simp only at h₂
    omega
  | case6 said c hd size c₁ heq hext hsp f c₂ heq₂ =>
    rw [nextAfter, heq] at h; simp [hext, hsp, heq₂] at h
  | case7 said c hd size c₁ heq hext hsp c₂ heq₂ =>
    have h₁ := size_header_lt heq
    have h₂ := size_sparseMap_le hd size c₁
    rw [heq₂] at h₂
    rw [nextAfter, heq] at h
    simp [hext, hsp, heq₂] at h
    obtain ⟨_, rfl⟩ := h
    simp only at h₂
    omega
  | case8 said c hd size c₁ heq hext hsp =>
    have h₁ := size_header_lt heq
    rw [nextAfter, heq] at h
    simp [hext, hsp] at h
    obtain ⟨_, rfl⟩ := h
    omega

/-- Reads on to the next member. -/
def nextMember (c : Cursor) : Except Fault (Option Member) × Cursor := c.nextAfter .none

/-- A member that was found is at least a block behind the place before. -/
theorem size_next_lt {c c' : Cursor} {m : Member} (h : c.nextMember = (.ok (some m), c')) :
    c'.feed.size + blockSize ≤ c.feed.size := size_nextAfter_lt .none c h

/-- Reads the content of the member at which the cursor stands, as far as it is there. -/
def content (size : Nat) (c : Cursor) : Bytes × Ending × Cursor := c.take copyUnit size

/-- Reading a content leaves no more than there was. -/
theorem size_content (size : Nat) (c : Cursor) :
    (c.content size).2.2.feed.size ≤ c.feed.size := by
  have := size_take copyUnit size c
  unfold content
  omega

end Cursor
end ImageBuild.Tar
