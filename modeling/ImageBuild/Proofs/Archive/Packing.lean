import ImageBuild.Proofs.Archive.Opening
import ImageBuild.Proofs.Archive.Tiling
import ImageBuild.Proofs.Path.Names
import ImageBuild.Proofs.Tar.Fields
import Mathlib.Data.List.Forall2

/-!
# `ImageBuild.Proofs.Archive.Packing`: how directories and files are packed

`Packs items bytes` says that a tar stream holds directories and files: for each of them a header
in the ustar or the GNU layout and the content padded to whole blocks, and then the end. It is a
relation, since archivers differ in how they spell numbers and names, and in what they put into
the fields that nothing here reads.

`Packs.listing_eq` is what such a stream has to say when it is read, and it is the same for all of
them: one entry for each item, with its name, kind, mode and content, and no fault. Of the stream
that `pack` writes the entries are known to the byte, so unpacking it is putting them
(`extract_pack`).
-/

set_option autoImplicit false

namespace ImageBuild

/-- The content of a file. Other nodes have none. -/
def Node.content : Node → Bytes
  | .file _ content => content
  | .directory _ | .link _ => []

namespace Tar

/-! ### Headers -/

/-- The sum of all bytes of a header, with blanks in place of the eight bytes of the checksum. -/
def blankSum (block : Bytes) : Nat :=
  ((block.take 148).map UInt8.toNat).sum + 8 * 0x20 + ((block.drop 156).map UInt8.toNat).sum

/-- Six octal digits are enough for the sum. -/
theorem blankSum_lt {block : Bytes} (h : block.length = blockSize) : blankSum block < 8 ^ 6 := by
  -- No byte counts for more than 255.
  have hle : ∀ l : Bytes, (l.map UInt8.toNat).sum ≤ 255 * l.length := by
    intro l
    induction l with
    | nil => simp
    | cons b rest ih =>
      have hb := b.toNat_lt
      rw [List.map_cons, List.sum_cons, List.length_cons]
      omega
  have hfront := hle (block.take 148)
  have hback := hle (block.drop 156)
  rw [List.length_take] at hfront
  rw [List.length_drop] at hback
  unfold blankSum
  unfold blockSize at h
  omega

/-- What the magic text and the field for a leading part of the name hold: ustar with an empty
leading part, or GNU, where that part of the header is something else. -/
def IsLayout (block : Bytes) : Prop :=
  (field block 257 8 = [0x75, 0x73, 0x74, 0x61, 0x72, 0, 0x30, 0x30] ∧
      ∃ rest, field block 345 155 = 0 :: rest) ∨
    field block 257 8 = [0x75, 0x73, 0x74, 0x61, 0x72, 0x20, 0x20, 0]

/-- The type bytes of a directory and of a file. -/
def IsFlagOf : Node → Bytes → Prop
  | .directory _, flag => flag = [0x35]
  | .file .., flag => flag = [0x30] ∨ flag = [0]
  | .link _, _ => False

/-- The block is a header for a directory or a file with this spelling of its name. -/
structure IsHeader (block text : Bytes) (n : Node) : Prop where
  length : block.length = blockSize
  name : field block 0 100 = text ++ List.replicate (100 - text.length) 0
  nul_notMem : 0 ∉ text
  mode : IsOctal (field block 100 8) n.mode.toNat
  size : IsNumber (field block 124 12) n.content.length
  checksum : IsOctal (field block 148 8) (blankSum block)
  flag : IsFlagOf n (field block 156 1)
  layout : IsLayout block

/-- The kind of the member that a node is packed as. -/
def kindOf : Node → MemberKind
  | .directory _ => .directory
  | .file .. => .file
  | .link _ => .other

namespace IsHeader

variable {block text : Bytes} {n : Node}

/-- The sum that is checked is the one with blanks for the checksum. -/
theorem checksum_eq (block : Bytes) : (Header.mk block).checksum = blankSum block := by
  have hsum : ∀ (l : Bytes) (k : Nat),
      l.foldl (fun sum b => sum + b.toNat) k = k + (l.map UInt8.toNat).sum := by
    intro l
    induction l with
    | nil => simp
    | cons b rest ih =>
      intro k
      rw [List.foldl_cons, ih, List.map_cons, List.sum_cons, Nat.add_assoc]
  unfold Header.checksum blankSum
  dsimp only
  rw [hsum, List.map_append, List.sum_append]
  omega

/-- The header says the size of the content, and its checksum is right. -/
theorem contentSize_eq (h : IsHeader block text n) (hn : n.content.length < Text.wordLimit) :
    Cursor.contentSize ⟨block⟩ .none = .ok n.content.length := by
  have hlt := blankSum_lt h.length
  have hstored : (Header.mk block).storedChecksum = .ok (blankSum block) := by
    unfold Header.storedChecksum
    rw [octal_eq h.checksum (Nat.lt_trans hlt (by decide))]
    simp [Except.map, Nat.mod_eq_of_lt (Nat.lt_trans hlt (by decide : 8 ^ 6 < 0x100000000))]
  have hsize : (Header.mk block).size = .ok n.content.length := number_eq h.size hn _
  unfold Cursor.contentSize
  rw [hstored, hsize, checksum_eq]
  simp [bind, Except.bind, pure, Except.pure, Extensions.none, Extensions.size?]

/-- The type byte says what the node is. -/
theorem typeFlag_eq (h : IsHeader block text n) :
    (∃ m, n = .directory m ∧ (Header.mk block).typeFlag = .directory) ∨
      ∃ m content, n = .file m content ∧ (Header.mk block).typeFlag = .regular := by
  have hflag := h.flag
  unfold Header.typeFlag
  cases n with
  | directory m =>
    have hflag : field block 156 1 = [0x35] := hflag
    exact Or.inl ⟨m, rfl, by rw [hflag]; rfl⟩
  | file m content =>
    refine Or.inr ⟨m, content, rfl, ?_⟩
    rcases hflag with hflag | hflag <;> rw [hflag] <;> rfl
  | link target => exact hflag.elim

/-- The header says nothing about another member. -/
theorem isExtension_eq (h : IsHeader block text n) : Cursor.isExtension ⟨block⟩ = false := by
  rcases h.typeFlag_eq with ⟨m, -, hflag⟩ | ⟨m, content, -,
    hflag⟩ <;> simp [Cursor.isExtension, hflag]

/-- It is no sparse member. -/
theorem typeFlag_ne_sparse (h : IsHeader block text n) :
    (Header.mk block).typeFlag ≠ .sparse := by
  rcases h.typeFlag_eq with ⟨m, -, hflag⟩ | ⟨m, content, -, hflag⟩ <;> simp [hflag]

/-- The header is no block of zeros. -/
theorem isZero_eq (h : IsHeader block text n) : (Header.mk block).isZero = false := by
  -- The magic text is not zero.
  cases hzero : (Header.mk block).isZero with
  | false => rfl
  | true =>
    have hall : ∀ b ∈ field block 257 8, b = 0 := by
      intro b hb
      have hmem : b ∈ block := List.mem_of_mem_drop (List.mem_of_mem_take hb)
      simpa using List.all_eq_true.mp hzero b hmem
    rcases h.layout with ⟨hmagic, -⟩ | hmagic <;> rw [hmagic] at hall <;> simp at hall

/-- The field of the name holds the name. -/
theorem untilNul_eq (h : IsHeader block text n) : untilNul (field block 0 100) = text := by
  rw [h.name, untilNul_append h.nul_notMem]
  cases 100 - text.length <;> simp [List.replicate_succ, untilNul]

/-- The header says the name. -/
theorem name_eq (h : IsHeader block text n) : (Header.mk block).name = text := by
  unfold Header.name
  rw [h.untilNul_eq]
  rcases h.layout with ⟨-, rest, hahead⟩ | hmagic
  · rw [hahead]
    simp [untilNul]
  · have hgnu : (Header.mk block).format = .gnu := by
      unfold Header.format
      rw [hmagic]
      rfl
    simp [hgnu]

/-- The name fits into its field. -/
theorem length_le (h : IsHeader block text n) : text.length ≤ 100 := by
  have hfield : (field block 0 100).length ≤ 100 := List.length_take_le _ _
  rw [h.name, List.length_append] at hfield
  omega

/-- The header says the mode. -/
theorem mode_eq (h : IsHeader block text n) : (Header.mk block).mode = n.mode := by
  have hlt : n.mode.toNat < Text.wordLimit := Nat.lt_trans n.mode.isLt (by decide)
  unfold Header.mode
  rw [octal?_eq h.mode hlt]
  simp

/-- The member that the header describes. -/
theorem memberOf_eq (h : IsHeader block text n) (size : Nat) :
    Cursor.memberOf ⟨block⟩ size .none = ⟨⟨text⟩, kindOf n, n.mode, size⟩ := by
  unfold Cursor.memberOf
  rw [h.mode_eq]
  have hname : Extensions.none.nameOf ⟨block⟩ = text := h.name_eq
  rw [hname]
  rcases h.typeFlag_eq with ⟨m, rfl, hflag⟩ | ⟨m, content, rfl, hflag⟩ <;> rw [hflag] <;> rfl

end IsHeader

/-! ### Writing a header -/

/-- The type byte that a node is packed with. -/
def flagOf : Node → UInt8
  | .directory _ => 0x35
  | .file .. | .link _ => 0x30

/-- The field of the name. -/
def nameField (text : Bytes) : Bytes := text ++ List.replicate (100 - text.length) 0

/-- What stands in a header before the checksum: name, mode, no owner or group, size and no
time. -/
def headerFront (text : Bytes) (n : Node) : Bytes :=
  nameField text ++ ((octalText 7 n.mode.toNat ++ [0]) ++ (List.replicate 16 0 ++
    ((octalText 11 n.content.length ++ [0]) ++ List.replicate 12 0)))

/-- What stands in a header behind the checksum: the type byte, no link, and the ustar layout with
nothing in its other fields. -/
def headerBack (n : Node) : Bytes :=
  flagOf n :: (List.replicate 100 0 ++ ([0x75, 0x73, 0x74, 0x61, 0x72, 0, 0x30, 0x30] ++
    List.replicate 247 0))

/-- The checksum that stands between these two. -/
def checksumField (front back : Bytes) : Bytes :=
  octalText 6 ((front.map UInt8.toNat).sum + 8 * 0x20 + (back.map UInt8.toNat).sum) ++ [0, 0x20]

/-- A header for a directory or a file, as archivers write it. -/
def headerBlock (text : Bytes) (n : Node) : Bytes :=
  headerFront text n ++ (checksumField (headerFront text n) (headerBack n) ++ headerBack n)

section
variable {text : Bytes} (htext : text.length ≤ 100) (n : Node)

/-- The checksum takes eight bytes. -/
theorem length_checksumField (front back : Bytes) : (checksumField front back).length = 8 := by
  rw [checksumField, List.length_append, length_octalText]
  rfl

include htext in
/-- The name takes a hundred bytes. -/
theorem length_nameField : (nameField text).length = 100 := by
  rw [nameField, List.length_append, List.length_replicate]
  omega

include htext in
/-- The checksum stands behind 148 bytes. -/
theorem length_headerFront : (headerFront text n).length = 148 := by
  simp only [headerFront, List.length_append, List.length_replicate, length_octalText,
    length_nameField htext, List.length_singleton]

/-- Behind it stand 356 bytes. -/
theorem length_headerBack : (headerBack n).length = 356 := by
  simp only [headerBack, List.length_append, List.length_replicate, List.length_cons,
    List.length_nil]

include htext in
/-- Together they are a block. -/
theorem length_headerBlock : (headerBlock text n).length = blockSize := by
  rw [headerBlock, List.length_append, List.length_append, length_headerFront htext,
    length_checksumField, length_headerBack]
  rfl

/-- A field behind the first part of a text is a field of the rest. -/
theorem field_append_of_le {front : Bytes} {offset : Nat} (h : front.length ≤ offset)
    (rest : Bytes) (width : Nat) :
    field (front ++ rest) offset width = field rest (offset - front.length) width := by
  unfold field
  rw [List.drop_append, List.drop_of_length_le h, List.nil_append]

/-- A field in the first part of a text. -/
theorem field_append_of_fits {front : Bytes} {offset width : Nat}
    (h : offset + width ≤ front.length) (rest : Bytes) :
      field (front ++ rest) offset width = field front offset width := by
  unfold field
  rw [List.drop_append_of_le_length (by omega), List.take_append_of_le_length]
  rw [List.length_drop]
  omega

/-- The field that is a whole text. -/
theorem field_self {text : Bytes} {width : Nat} (h : text.length = width) :
    field text 0 width = text := by
  rw [field, List.drop_zero, List.take_of_length_le (Nat.le_of_eq h)]

include htext in
/-- The blanks that the sum is taken with are in place of the checksum. -/
theorem blankSum_headerBlock : blankSum (headerBlock text n) =
    ((headerFront text n).map UInt8.toNat).sum + 8 * 0x20 +
      ((headerBack n).map UInt8.toNat).sum := by
  have hfront := length_headerFront htext n
  have hbehind : (headerBlock text n).drop 156 = headerBack n := by
    rw [headerBlock, ← List.append_assoc]
    exact List.drop_left' (by rw [List.length_append, hfront, length_checksumField])
  unfold blankSum
  rw [hbehind, headerBlock, List.take_left' hfront]

include htext in
/-- A field before the checksum. -/
theorem field_front {offset width : Nat} (h : offset + width ≤ 148) :
    field (headerBlock text n) offset width = field (headerFront text n) offset width := by
  unfold headerBlock
  exact field_append_of_fits (by rw [length_headerFront htext]; exact h) _

include htext in
/-- A field behind the checksum. -/
theorem field_back {offset : Nat} (h : 156 ≤ offset) (width : Nat) :
    field (headerBlock text n) offset width = field (headerBack n) (offset - 156) width := by
  have hfront := length_headerFront htext n
  have hchecksum := length_checksumField (headerFront text n) (headerBack n)
  unfold headerBlock
  rw [field_append_of_le (by omega), field_append_of_le (by omega), hfront, hchecksum,
    Nat.sub_sub]

include htext in
/-- What is written is a header for the node. -/
theorem isHeader_headerBlock (hnul : 0 ∉ text) (hn : n.isLink = false)
    (hsize : n.content.length < 8 ^ 11) : IsHeader (headerBlock text n) text n := by
  have hname := length_nameField htext
  have hmode : (octalText 7 n.mode.toNat ++ [0]).length = 8 := by simp
  have hlength : (octalText 11 n.content.length ++ [0]).length = 12 := by simp
  have hfront := length_headerFront htext n
  have hsum := blankSum_lt (length_headerBlock htext n)
  -- One field after the other, each found behind the parts before it: the name, the mode, the
  -- size, the checksum, the type byte and the two fields that make the layout.
  refine ⟨length_headerBlock htext n, ?_, hnul, ?_, Or.inl ?_, ?_, ?_,
    Or.inl ⟨?_, List.replicate 154 0, ?_⟩⟩
  · rw [field_front htext n (by decide), headerFront, field_append_of_fits (by omega),
      field_self hname]
    rfl
  · rw [field_front htext n (by decide), headerFront, field_append_of_le (by omega), hname,
      field_append_of_fits (by omega), field_self hmode]
    exact isOctal_octalText (by decide) (Nat.lt_trans n.mode.isLt (by decide)) []
  · rw [field_front htext n (by decide), headerFront, field_append_of_le (by omega), hname,
      field_append_of_le (by omega), hmode, field_append_of_le (by simp), List.length_replicate,
      field_append_of_fits (by omega), field_self hlength]
    exact isOctal_octalText (by decide) hsize []
  · have hchecksum := length_checksumField (headerFront text n) (headerBack n)
    rw [headerBlock, field_append_of_le (by omega), hfront, field_append_of_fits (by omega),
      field_self hchecksum, ← headerBlock, blankSum_headerBlock htext]
    rw [blankSum_headerBlock htext] at hsum
    exact isOctal_octalText (by decide) hsum [0x20]
  · rw [field_back htext n (Nat.le_refl _)]
    cases n with
    | directory m => rfl
    | file m content => exact Or.inl rfl
    | link target => cases hn
  · rw [field_back htext n (by decide)]
    rfl
  · rw [field_back htext n (by decide)]
    rfl

end

end Tar

namespace Archive

open Tar

/-! ### Streams that hold directories and files -/

/-- The text spells these names one below the other, with a `.` in front or without. -/
def Spells (text : Bytes) (names : List Name) : Prop :=
  (Path.mk text).components.filter (· != .here) = names.map .normal

/-- The bytes of a tar stream with these directories and files, each at the place of its names.
The content of a file is padded to whole blocks. The stream ends behind the last one, or zeros end
the archive there. -/
inductive Packs : List (List Name × Node) → Bytes → Prop
  | ended : Packs [] []
  | zeros (rest : Bytes) : Packs [] (List.replicate blockSize 0 ++ rest)
  | item {names : List Name} {n : Node} {text block padding bytes : Bytes}
    {items : List (List Name × Node)} : Spells text names → IsHeader block text n →
    padding.length < blockSize → (n.content.length + padding.length) % blockSize = 0 →
    Packs items bytes → Packs ((names, n) :: items) (block ++ (n.content ++ padding ++ bytes))

/-- Names spell themselves. -/
theorem spells_ofNames {names : List Name} (hnames : ∀ n ∈ names, IsName n) :
    Spells (Path.ofNames names).bytes names := by
  have hkept : (names.map Component.normal).filter (· != .here) = names.map .normal := by
    refine List.filter_eq_self.mpr fun c hc => ?_
    obtain ⟨n, -, rfl⟩ := List.mem_map.mp hc
    rfl
  exact (congrArg _ (Path.components_ofNames hnames)).trans hkept

/-- An item can be packed: it is a directory or a file with plain names, whose spelling fits into
a header, and whose size has eleven octal digits at most. -/
structure IsPackable (item : List Name × Node) : Prop where
  isName : ∀ n ∈ item.1, IsName n
  nul_notMem : ∀ n ∈ item.1, 0 ∉ n
  length_le : (Path.ofNames item.1).bytes.length ≤ 100
  notLink : item.2.isLink = false
  size_lt : item.2.content.length < 8 ^ 11

/-- A tar stream with these items, each with its names as they are, and with two blocks of zeros
at the end, as archivers write it. -/
def pack : List (List Name × Node) → Bytes
  | [] => List.replicate blockSize 0 ++ List.replicate blockSize 0
  | (names, n) :: items =>
    headerBlock (Path.ofNames names).bytes n ++ (n.content ++
      List.replicate (Cursor.padded n.content.length - n.content.length) 0 ++ pack items)

/-- The header that is written for an item describes it. -/
theorem IsPackable.isHeader {item : List Name × Node} (h : IsPackable item) :
    IsHeader (headerBlock (Path.ofNames item.1).bytes item.2)
    (Path.ofNames item.1).bytes item.2 := by
  have htext : 0 ∉ (Path.ofNames item.1).bytes := by
    simpa [Path.hasNul] using Path.hasNul_ofNames h.nul_notMem
  exact isHeader_headerBlock h.length_le item.2 htext h.notLink h.size_lt

/-- The zeros behind a content fill up its last block. -/
theorem padding_fits (size : Nat) :
    (List.replicate (Cursor.padded size - size) (0 : UInt8)).length < blockSize ∧
      (size + (List.replicate (Cursor.padded size - size) (0 : UInt8)).length) % blockSize =
        0 := by
  rw [List.length_replicate]
  unfold Cursor.padded blockSize
  omega

/-- What is written holds the items. -/
theorem packs_pack {items : List (List Name × Node)} (h : ∀ item ∈ items, IsPackable item) :
    Packs items (pack items) := by
  induction items with
  | nil => exact .zeros _
  | cons item rest ih =>
    obtain ⟨names, n⟩ := item
    have hitem := h _ List.mem_cons_self
    obtain ⟨hlt, hwhole⟩ := padding_fits n.content.length
    exact .item (spells_ofNames hitem.isName) hitem.isHeader hlt hwhole
      (ih fun item hitem => h item (List.mem_cons_of_mem _ hitem))

/-- The entry says what an item is: its place by a spelling of its names, and its kind, mode and
content. -/
structure IsEntryOf (item : List Name × Node) (e : Entry) : Prop where
  name : Spells e.member.name.bytes item.1
  nul_notMem : 0 ∉ e.member.name.bytes
  length_le : e.member.name.bytes.length ≤ 100
  kind : e.member.kind = kindOf item.2
  notLink : item.2.isLink = false
  mode : e.member.mode = item.2.mode
  content : e.content = item.2.content
  fault? : e.fault? = none

/-- Padding that comes to whole blocks comes to as many as the content needs. -/
theorem padded_eq {size padding : Nat} (hlt : padding < blockSize)
    (hwhole : (size + padding) % blockSize = 0) : Cursor.padded size = size + padding := by
  unfold Cursor.padded
  unfold blockSize at *
  omega

/-- What an archiver packs is a whole member. -/
theorem spans_of_isHeader {block text padding : Bytes} {n : Node}
    (hheader : IsHeader block text n) (hlt : padding.length < blockSize)
    (hwhole : (n.content.length + padding.length) % blockSize = 0)
    (hsize : n.content.length < Text.wordLimit) :
    Spans ⟨⟨text⟩, kindOf n, n.mode, n.content.length⟩ n.content
    (block ++ (n.content ++ padding)) := by
  have his : IsHeaderOf .none ⟨block⟩ n.content.length :=
    ⟨hheader.length, hheader.isZero_eq, hheader.contentSize_eq hsize⟩
  have hheads := Heads.plain his hheader.isExtension_eq hheader.typeFlag_ne_sparse
  rw [hheader.memberOf_eq] at hheads
  exact .mk hheads rfl (padded_eq hlt hwhole).symm

/-- Of directories and files all content is read. -/
theorem entryOf_content {block text : Bytes} {n : Node} (hheader : IsHeader block text n)
    (m : Member) (hkind : m.kind = kindOf n) : entryOf m n.content = ⟨m, n.content, none⟩ := by
  unfold entryOf
  rw [hkind]
  cases n with
  | directory | file => rfl
  | link target => exact hheader.flag.elim

/-- An item is read as its entry, and then come the other items. -/
theorem readEntry_of_isHeader {block text padding bytes : Bytes} {n : Node} {c : Cursor}
    (hheader : IsHeader block text n) (hlt : padding.length < blockSize)
    (hwhole : (n.content.length + padding.length) % blockSize = 0)
    (h : c.StandsBefore (block ++ (n.content ++ padding ++ bytes))) :
    ∃ c' c'', c.nextMember = (.ok (some ⟨⟨text⟩, kindOf n, n.mode, n.content.length⟩), c') ∧
      readEntry ⟨⟨text⟩, kindOf n, n.mode, n.content.length⟩ c' =
        (⟨⟨⟨text⟩, kindOf n, n.mode, n.content.length⟩, n.content, none⟩, c'') ∧
      c''.StandsBefore bytes ∧ c'.position = c.next + blockSize ∧
      c''.next = c'.position + (n.content.length + padding.length) := by
  have hpadded := padded_eq hlt hwhole
  have hlimit := h.limit
  simp only [List.length_append] at hlimit
  rw [← List.append_assoc] at h
  obtain ⟨c', c'', hmember, hentry, hrest, hposition, hnext⟩ :=
    readEntry_of_spans (spans_of_isHeader hheader hlt hwhole (by omega)) h
  rw [entryOf_content hheader _ rfl] at hentry
  have hlength : block.length = blockSize := hheader.length
  simp only [List.length_append] at hposition hnext
  exact ⟨c', c'', hmember, hentry, hrest, by omega, by omega⟩

/-- A stream with these items is read as their entries, and then it ends. -/
theorem Packs.listing_eq {items : List (List Name × Node)} {bytes : Bytes} (h : Packs items bytes)
    {c : Cursor} (hc : c.StandsBefore bytes) :
    ∃ entries, listing c = (entries, none) ∧ List.Forall₂ IsEntryOf items entries := by
  induction h generalizing c with
  | ended =>
    obtain ⟨c', hnone⟩ := hc.nextMember_of_end (Or.inl rfl)
    exact ⟨[], by rw [listing, hnone], .nil⟩
  | zeros rest =>
    obtain ⟨c', hnone⟩ := hc.nextMember_of_end (Or.inr ⟨rest, rfl⟩)
    exact ⟨[], by rw [listing, hnone], .nil⟩
  | @item names n text block padding bytes items hspells hheader hlt hwhole hitems ih =>
    obtain ⟨c', c'', hmember, hentry, hrest, -⟩ := readEntry_of_isHeader hheader hlt hwhole hc
    obtain ⟨entries, hlisting, hentries⟩ := ih hrest
    refine ⟨⟨⟨⟨text⟩, kindOf n, n.mode, n.content.length⟩, n.content, none⟩ :: entries, ?_,
      .cons ⟨hspells, hheader.nul_notMem, hheader.length_le, rfl, ?_, rfl, rfl, rfl⟩ hentries⟩
    · rw [listing, hmember]
      dsimp only
      rw [hentry, hlisting]
    · have hflag := hheader.flag
      cases n with
      | directory | file => rfl
      | link target => exact hflag.elim

/-- The entry that an item is packed as. -/
def packedEntry (item : List Name × Node) : Entry :=
  ⟨⟨Path.ofNames item.1, kindOf item.2, item.2.mode, item.2.content.length⟩, item.2.content, none⟩

/-- What `pack` writes is read as the entries of the items, and then it ends. -/
theorem listing_pack {items : List (List Name × Node)} (h : ∀ item ∈ items, IsPackable item)
    {c : Cursor} (hc : c.StandsBefore (pack items)) :
    listing c = (items.map packedEntry, none) := by
  induction items generalizing c with
  | nil =>
    obtain ⟨c', hnone⟩ := hc.nextMember_of_end (Or.inr ⟨_, rfl⟩)
    rw [listing, hnone]
    rfl
  | cons item rest ih =>
    have hitem := h item List.mem_cons_self
    obtain ⟨hlt, hwhole⟩ := padding_fits item.2.content.length
    obtain ⟨c', c'', hmember, hentry, hrest, -⟩ :=
      readEntry_of_isHeader hitem.isHeader hlt hwhole hc
    rw [listing, hmember]
    dsimp only
    rw [hentry, ih (fun item hitem => h item (List.mem_cons_of_mem _ hitem)) hrest]
    rfl

/-- Unpacking what `pack` writes is putting the entries of the items, one after the other. -/
theorem extract_pack {items : List (List Name × Node)} (h : ∀ item ∈ items, IsPackable item)
    (hplain : detectCompression ((pack items).take headerWindow) = .none)
    (hlimit : (pack items).length < Text.wordLimit) (t : FileTree) (destination : Path) :
    extract t destination (.ofBytes (pack items)) =
      unpack destination none t .empty (items.map packedEntry) := by
  obtain ⟨feed, hopen, hwhole, hbytes⟩ := (Carries.ofBytes hplain).opened
  have hstart : Cursor.StandsBefore feed.bytes (.start feed) := .start hwhole (hbytes ▸ hlimit)
  rw [hbytes] at hstart
  rw [extract_of_opened hopen, listing_pack h hstart]

end Archive
end ImageBuild
