import ImageBuild.Path
import ImageBuild.Tar.Fault
import ImageBuild.Text.Blank
import ImageBuild.Text.Number
import ImageBuild.Tree.Basic

/-!
# `ImageBuild.Tar.Header`: the fields of a header block

A tar member starts with a block of 512 bytes that holds its name, mode, size, checksum and kind
at fixed places. Text ends at the first NUL of its field, numbers are octal text, and a size may
also be a big-endian number in base 256.
-/

set_option autoImplicit false

namespace ImageBuild.Tar

/-- The unit of a tar stream: headers are one block, content is padded to whole blocks. -/
def blockSize : Nat := 512

/-- The bytes of one field. -/
def field (block : Bytes) (offset width : Nat) : Bytes := (block.drop offset).take width

/-- The text in a field: what stands before the first NUL. -/
def untilNul (bytes : Bytes) : Bytes := bytes.takeWhile (· != 0)

/-- The octal number in a field, blanks around it allowed. -/
def octal? (bytes : Bytes) : Option Nat :=
  (Utf8.decode? (untilNul bytes)).bind fun text => Text.readWord 8 (Text.trimChars text.toList)

/-- The octal number in a field that has to hold one. -/
def octal (bytes : Bytes) (what : NumberField) : Except Fault Nat :=
  match Utf8.decode? (untilNul bytes) with
  | none => .error (.notText (Utf8.decodeLossy (untilNul bytes)) what)
  | some text =>
    match octal? bytes with
    | none => .error (.notANumber text what)
    | some n => .ok n

/-- The number whose bytes these are, highest first. -/
def bigEndian (bytes : Bytes) : Nat := bytes.foldl (fun n b => 256 * n + b.toNat) 0

/-- The number in a field of twelve bytes: octal text, or the last eight bytes in base 256 if the
first byte has its high bit set. -/
def number (bytes : Bytes) (what : NumberField) : Except Fault Nat :=
  if bytes.headD 0 &&& 0x80 != 0 then .ok (bigEndian (bytes.drop 4)) else octal bytes what

/-- How a header is laid out beyond the fields that all of them have. -/
inductive Format
  | old
  | ustar
  | gnu
  deriving DecidableEq, Repr

/-- What a member is, as far as reading the stream goes. -/
inductive TypeFlag
  | regular
  | directory
  | longName
  | longLink
  | pax
  /-- Pax records about all members that follow. -/
  | globalPax
  | sparse
  | other
  deriving DecidableEq, Repr

/-- A header block. -/
structure Header where
  block : Bytes
  deriving Repr, DecidableEq

namespace Header

/-- The layout, by the magic text. -/
def format (h : Header) : Format :=
  let magic := field h.block 257 8
  if magic = [0x75, 0x73, 0x74, 0x61, 0x72, 0, 0x30, 0x30] then .ustar
  else if magic = [0x75, 0x73, 0x74, 0x61, 0x72, 0x20, 0x20, 0] then .gnu
  else .old

/-- What the type byte says. -/
def typeFlag (h : Header) : TypeFlag :=
  match field h.block 156 1 with
  | [0] | [0x30] => .regular
  | [0x35] => .directory
  | [0x4C] => .longName
  | [0x4B] => .longLink
  | [0x78] => .pax
  | [0x67] => .globalPax
  | [0x53] => .sparse
  | _ => .other

/-- The name in the header itself. -/
def name (h : Header) : Bytes :=
  let base := untilNul (field h.block 0 100)
  let before := untilNul (field h.block 345 155)
  if h.format = .ustar ∧ before ≠ [] then before ++ slash :: base else base

/-- Owner and group, for messages. -/
def owner (h : Header) : String :=
  Utf8.decodeLossy (untilNul (field h.block 265 32)) ++ ":" ++
    Utf8.decodeLossy (untilNul (field h.block 297 32))

/-- The sum that the checksum field should hold: all bytes, with that field as blanks. -/
def checksum (h : Header) : Nat :=
  (h.block.take 148 ++ h.block.drop 156).foldl (fun sum b => sum + b.toNat) (8 * 32)

/-- The sum that the checksum field holds. -/
def storedChecksum (h : Header) : Except Fault Nat :=
  (octal (field h.block 148 8) (.checksum (Utf8.decodeLossy h.name))).map (· % 0x100000000)

/-- The size of the content. -/
def size (h : Header) : Except Fault Nat :=
  number (field h.block 124 12) (.size (Utf8.decodeLossy h.name))

/-- The mode that members without a readable one get. -/
def fallbackMode : Mode := 0o644

/-- The permission bits. -/
def mode (h : Header) : Mode :=
  ((octal? (field h.block 100 8)).map (BitVec.ofNat 12)).getD fallbackMode

/-- Whether the block is all zeros, which ends an archive. -/
def isZero (h : Header) : Bool := h.block.all (· == 0)

end Header
end ImageBuild.Tar
