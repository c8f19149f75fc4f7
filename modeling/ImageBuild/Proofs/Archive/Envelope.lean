import ImageBuild.Proofs.Archive.Packing
import ImageBuild.Proofs.Stream.Reading

/-!
# `ImageBuild.Proofs.Archive.Envelope`: names that look like envelopes

An envelope is told from the first bytes of a stream, and those of a plain tar stream are the name
of its first member. A name that starts with the bytes of an envelope is therefore taken for one,
however well the header is formed. `envelopeOfName` is the envelope that a name passes for, and
for a whole first block it is what `detectCompression` answers
(`detectCompression_eq_envelopeOfName`). The six bytes of xz end with a NUL, so for xz it is one
name only, and for the others all names that start with their bytes.

`extract_of_firstName` is what becomes of the stream: its members are read as they are if the name
passes for none, and else it is decoded or refused.
-/

set_option autoImplicit false

namespace ImageBuild.Archive

open Tar

variable {block w l : Bytes}

/-! ### The name in a block -/

/-- The name field of a header, up to its first NUL. -/
def firstName (block : Bytes) : Bytes := untilNul (field block 0 100)

/-- Bytes without a NUL stand at the front exactly if they stand in front of the first NUL. -/
theorem prefix_untilNul_iff (hw : 0 ∉ w) : w <+: untilNul l ↔ w <+: l := by
  constructor
  · exact fun h => h.trans (List.takeWhile_prefix _)
  · rintro ⟨rest, rfl⟩
    rw [untilNul_append hw]
    exact List.prefix_append _ _

/-- Bytes without a NUL that fit into the name field stand at its front if they stand at the front
of the block. -/
theorem prefix_firstName_iff (hw : 0 ∉ w) (hlen : w.length ≤ 100) :
    w <+: firstName block ↔ w <+: block := by
  unfold firstName field
  rw [prefix_untilNul_iff hw, List.drop_zero, List.prefix_take_iff]
  exact and_iff_left hlen

/-- The name is what stands before a NUL at the front of the block. -/
theorem firstName_eq_iff (hw : 0 ∉ w) (hlen : w.length < 100) (hblock : 100 ≤ block.length) :
    firstName block = w ↔ w ++ [0] <+: block := by
  have hfield : (field block 0 100).length = 100 := by
    unfold field
    rw [List.drop_zero, List.length_take]
    omega
  have hfront : field block 0 100 <+: block := by
    unfold field
    rw [List.drop_zero]
    exact List.take_prefix _ _
  constructor
  · intro hname
    -- The name does not fill the field, and what ends it is a NUL.
    have hsplit : w ++ (field block 0 100).dropWhile (· != 0) = field block 0 100 := by
      rw [← hname]
      exact List.takeWhile_append_dropWhile
    have hne : (field block 0 100).dropWhile (· != 0) ≠ [] := by
      intro hnil
      have hall := congrArg List.length hsplit
      rw [hnil, List.append_nil, hfield] at hall
      omega
    have hnul := List.head_dropWhile_not (· != (0 : UInt8)) hne
    obtain ⟨b, more, hcons⟩ := List.exists_cons_of_ne_nil hne
    simp only [hcons, List.head_cons, bne_eq_false_iff_eq] at hnul
    rw [hcons, hnul] at hsplit
    refine List.IsPrefix.trans ?_ hfront
    exact ⟨more, by rw [← hsplit]; simp⟩
  · intro hstands
    have hin : w ++ [0] <+: field block 0 100 := by
      unfold field
      rw [List.drop_zero, List.prefix_take_iff]
      refine ⟨hstands, ?_⟩
      rw [List.length_append, List.length_singleton]
      omega
    obtain ⟨rest, hrest⟩ := hin
    unfold firstName
    rw [← hrest, List.append_assoc, untilNul_append hw]
    simp [untilNul]

/-- A stream has a whole window if it has that many bytes. -/
theorem length_window_iff {s : Stream} :
    (s.bytes.take headerWindow).length = headerWindow ↔ headerWindow ≤ s.bytes.length := by
  rw [List.length_take]
  omega

/-! ### The envelope that a name passes for -/

/-- The envelope whose first bytes a name spells. -/
def envelopeOfName (name : Bytes) : Compression :=
  if [0x42, 0x5A, 0x68] <+: name then .bzip2
  else if [0x1F, 0x8B, 0x08] <+: name then .gzip
  -- The sixth byte of xz is the NUL that ends this name.
  else if name = [0xFD, 0x37, 0x7A, 0x58, 0x5A] then .xz
  else if [0x28, 0xB5, 0x2F, 0xFD] <+: name then .zstd
  else .none

/-- A whole block is taken for the envelope that its name passes for. -/
theorem detectCompression_eq_envelopeOfName (hblock : block.length = headerWindow) :
    detectCompression block = envelopeOfName (firstName block) := by
  have hlen : 100 ≤ block.length := by rw [hblock]; decide
  have hxz : firstName block = [0xFD, 0x37, 0x7A, 0x58, 0x5A] ↔
      [0xFD, 0x37, 0x7A, 0x58, 0x5A, 0x00] <+: block :=
        firstName_eq_iff (by decide) (by decide) hlen
  -- With the names written back as fronts of the block, both sides ask the same of it in the same
  -- order.
  unfold envelopeOfName
  simp only [prefix_firstName_iff (w := [0x42, 0x5A, 0x68]) (by decide) (by decide),
    prefix_firstName_iff (w := [0x1F, 0x8B, 0x08]) (by decide) (by decide),
    prefix_firstName_iff (w := [0x28, 0xB5, 0x2F, 0xFD]) (by decide) (by decide), hxz,
    ← List.isPrefixOf_iff_prefix]
  unfold detectCompression magic
  simp only [List.find?_cons, List.find?_nil]
  repeat' split
  all_goals simp_all

/-- The name in the first block of a stream decides how the stream is read, whatever else the
block says. If it passes for no envelope, the members are read from the bytes of the stream as
they are. If it passes for gzip, they are read from what is decoded, and if it passes for any
other envelope, the stream is refused and nothing is done. -/
theorem extract_of_firstName {s : Stream} (hlen : headerWindow ≤ s.bytes.length) :
    detectCompression (s.bytes.take headerWindow) =
        envelopeOfName (firstName (s.bytes.take headerWindow)) ∧
      ∃ whole : Stream, whole.bytes = s.bytes ∧ whole.broken = s.broken ∧
        ∀ (t : FileTree) (destination : Path), extract t destination s =
          match envelopeOfName (firstName (s.bytes.take headerWindow)) with
          | .none => putMembers destination ⟨t, .start (.ofStream whole), .empty⟩
          | .gzip => putMembers destination ⟨t, .start (Gzip.feed whole), .empty⟩
          | other => (.error (.unsupported other), t) := by
  have hdetect := detectCompression_eq_envelopeOfName (length_window_iff.mpr hlen)
  obtain ⟨rest, hread⟩ := Stream.exists_readUpTo hlen
  obtain ⟨-, hbroken, hbytes⟩ := Stream.readUpTo_spec hread
  refine ⟨hdetect, rest.putBack (s.bytes.take headerWindow), hbytes, hbroken,
    fun t destination => ?_⟩
  -- The name is asked once, and each of its answers is one branch of the unpacking.
  unfold extract
  rw [hread]
  dsimp only
  rw [hdetect]
  cases envelopeOfName (firstName (s.bytes.take headerWindow)) <;> rfl

/-- The stream of one header, for a directory with this name. -/
def loneDirectory (name : Bytes) : Stream := .ofBytes (headerBlock name (.directory 0o755))

section
variable (name : Bytes) (hshort : name.length ≤ 100) (hnul : 0 ∉ name)
include hshort hnul

/-- Its first block is the header of a directory of that name. -/
theorem isHeader_loneDirectory :
    IsHeader (loneDirectory name).bytes name (.directory 0o755) := by
  have hbytes : (loneDirectory name).bytes = headerBlock name (.directory 0o755) := by
    simp [loneDirectory, Stream.ofBytes, Stream.bytes]
  rw [hbytes]
  exact isHeader_headerBlock hshort _ hnul rfl (by decide)

/-- A stream of one block is its own window, and the name in there is the one of its header. -/
theorem window_loneDirectory :
    headerWindow ≤ (loneDirectory name).bytes.length ∧
      (loneDirectory name).bytes.take headerWindow = (loneDirectory name).bytes ∧
      firstName (loneDirectory name).bytes = name := by
  have hheader := isHeader_loneDirectory name hshort hnul
  have hlen : (loneDirectory name).bytes.length = headerWindow := hheader.length
  exact ⟨Nat.le_of_eq hlen.symm, List.take_of_length_le (Nat.le_of_eq hlen), hheader.untilNul_eq⟩

end

/-- The headers of the directories `a` and `BZh` are both well-formed. Of a stream with the first
the members are read, and a stream with the second is refused because it passes for bzip2. -/
theorem loneDirectory_of_firstName :
    IsHeader (loneDirectory [0x42, 0x5A, 0x68]).bytes [0x42, 0x5A, 0x68] (.directory 0o755) ∧
    detectCompression ((loneDirectory [0x61]).bytes.take headerWindow) = .none ∧
    detectCompression ((loneDirectory [0x42, 0x5A, 0x68]).bytes.take headerWindow) = .bzip2 ∧
    ∀ (t : FileTree) (destination : Path),
      (∃ whole : Stream, whole.bytes = (loneDirectory [0x61]).bytes ∧
        extract t destination (loneDirectory [0x61]) =
          putMembers destination ⟨t, .start (.ofStream whole), .empty⟩) ∧
      extract t destination (loneDirectory [0x42, 0x5A, 0x68]) =
        (.error (.unsupported .bzip2), t) := by
  obtain ⟨hlen₁, hwindow₁, hname₁⟩ := window_loneDirectory [0x61] (by decide) (by decide)
  obtain ⟨hlen₂, hwindow₂, hname₂⟩ :=
    window_loneDirectory [0x42, 0x5A, 0x68] (by decide) (by decide)
  obtain ⟨hdetect₁, whole, hbytes, -, hextract₁⟩ := extract_of_firstName hlen₁
  obtain ⟨hdetect₂, whole₂, -, -, hextract₂⟩ := extract_of_firstName hlen₂
  have hplain : envelopeOfName [0x61] = .none := by decide
  have hbzip2 : envelopeOfName [0x42, 0x5A, 0x68] = .bzip2 := by decide
  rw [hwindow₁] at hdetect₁ hextract₁ ⊢
  rw [hwindow₂] at hdetect₂ hextract₂ ⊢
  rw [hname₁, hplain] at hdetect₁ hextract₁
  rw [hname₂, hbzip2] at hdetect₂ hextract₂
  exact ⟨isHeader_loneDirectory _ (by decide) (by decide), hdetect₁, hdetect₂,
    fun t destination =>
    ⟨⟨whole, hbytes, hextract₁ t destination⟩, hextract₂ t destination⟩⟩

end ImageBuild.Archive
