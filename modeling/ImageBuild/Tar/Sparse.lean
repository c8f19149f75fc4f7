import ImageBuild.Tar.Header

/-!
# `ImageBuild.Tar.Sparse`: the maps of sparse members

A sparse member lists which stretches of the file are stored. `SparseMap.add` takes in one
listed stretch: the stretches go upwards, none overlaps the one before, each but the last stored
one fills whole blocks, and together they use up the content exactly.
-/

set_option autoImplicit false

namespace ImageBuild.Tar

/-- How much of a sparse file the map has described. -/
structure SparseMap where
  /-- The size of the stored content. -/
  stored : Nat
  /-- The offset in the file that the stretches so far reach. -/
  reached : Nat
  /-- How much of the stored content they have not used. -/
  unused : Nat
  deriving DecidableEq, Repr

namespace SparseMap

/-- Takes in one entry of the map: offset and length, twelve bytes each. -/
def add (m : SparseMap) (entry : Bytes) : Except Fault SparseMap :=
  if (field entry 0 1 == [0]) || (field entry 12 1 == [0]) then .ok m
  else do
    let offset ← number (field entry 0 12) .sparseOffset
    let length ← number (field entry 12 12) .sparseLength
    if length ≠ 0 ∧ (m.stored - m.unused) % blockSize ≠ 0 then throw .sparseAlignment
    if offset < m.reached then throw .sparseOrder
    if Text.wordLimit ≤ offset + length then throw .sparseOverflow
    if m.unused < length then throw .sparseExcess
    return { m with reached := offset + length, unused := m.unused - length }

/-- Takes in `count` entries that lie one after the other. -/
def addAll : (count : Nat) → SparseMap → Bytes → Except Fault SparseMap
  | 0, m, _ => .ok m
  | count + 1, m, bytes => do
    let m ← m.add (bytes.take 24)
    addAll count m (bytes.drop 24)

/-- Takes in the four entries of the header. -/
def addHeader (m : SparseMap) (h : Header) : Except Fault SparseMap :=
  addAll 4 m (h.block.drop 386)

/-- Takes in the entries of an extension block. -/
def addExtension (m : SparseMap) (block : Bytes) : Except Fault SparseMap := addAll 21 m block

/-- Whether the header announces an extension block. -/
def headerContinues (h : Header) : Bool := field h.block 482 1 == [1]

/-- Whether an extension block announces another one. -/
def extensionContinues (block : Bytes) : Bool := field block 504 1 == [1]

/-- Whether the map fits the sizes in the header. -/
def check (m : SparseMap) (h : Header) : Except Fault Unit := do
  let real ← number (field h.block 483 12) (.realSize h.owner)
  if m.reached ≠ real then throw .sparseRealSize
  if 0 < m.unused then throw .sparseEntrySize

end SparseMap
end ImageBuild.Tar
