import ImageBuild.Gzip.Huffman
import ImageBuild.Stream

/-!
# `ImageBuild.Gzip.Inflate`: the deflate format

A deflate stream is a sequence of blocks: stored bytes, or symbols of two prefix codes that stand
for literal bytes and for copies out of the bytes before. `Inflate.blocks` decodes one from
input that arrives in chunks.

The output is handed on in pieces. A piece ends where the input at hand ends, and where the
window of 32 KiB is full; in the second case a read may go on into the next piece. A symbol is
decoded as soon as its last bit is there, so the cuts depend on the chunks alone. Where the window
is full the input is asked for again, so a reader that fails there ends the decoding.
-/

set_option autoImplicit false

namespace ImageBuild.Gzip

/-- Why decoding stops before its end. -/
inductive Halt
  /-- The input is used up. -/
  | dry
  | fault (f : StreamFault)
  deriving DecidableEq, Repr

/-- A decoder at work. -/
structure Decoder where
  /-- What is left of the chunk at hand. -/
  chunk : Bytes
  /-- The chunks after it, none of them empty. -/
  later : List Bytes
  /-- After the last chunk the reader fails. -/
  broken : Bool
  /-- The input was used up when the window was full: what comes now is decoded from bits that
  were read before. -/
  starved : Bool
  /-- The byte whose bits are being read, shifted so that the next bit is the lowest. -/
  current : Nat
  /-- How many of its bits are left. -/
  bitsLeft : Nat
  /-- Everything this member has put out. -/
  output : ByteArray
  /-- How much of `output` is in `pieces` already. -/
  handedOn : Nat
  /-- The finished pieces, latest first, and whether a read may go on after each. -/
  pieces : List (Bytes × Bool)

/-- A decoding step. -/
abbrev Decode := EStateM Halt Decoder

namespace Decoder

/-- The decoder at the start of its input. -/
def start (chunks : List Bytes) (broken : Bool) : Decoder :=
  match chunks.filter fun c => !c.isEmpty with
  | [] => ⟨[], [], broken, false, 0, 0, .empty, 0, []⟩
  | chunk :: later => ⟨chunk, later, broken, false, 0, 0, .empty, 0, []⟩

/-- Whether all input was read. -/
def isUsedUp (d : Decoder) : Bool := d.chunk.isEmpty && d.later.isEmpty

/-- Ends the piece that is being put out. -/
def cut (joins : Bool) (d : Decoder) : Decoder :=
  if d.handedOn < d.output.size then
    { d with
      pieces := ((d.output.extract d.handedOn d.output.size).toList, joins) :: d.pieces
      handedOn := d.output.size }
  else d

/-- How many bytes of input are left. -/
def inputSize (d : Decoder) : Nat :=
  d.later.foldl (fun size chunk => size + chunk.length) d.chunk.length

end Decoder

/-- The size of the window. -/
def windowSize : Nat := 32768

/-- The next byte of input. When the chunk at hand is used up, the piece ends. -/
def nextByte : Decode UInt8 := do
  let d ← get
  match d.chunk with
  | b :: rest =>
    set { d with chunk := rest }
    return b
  | [] =>
    let d := d.cut false
    match d.later with
    | (b :: rest) :: later =>
      set { d with chunk := rest, later := later }
      return b
    | _ =>
      set d
      throw .dry

/-- The next bit of input, lowest bit of a byte first. -/
def nextBit : Decode Nat := do
  let d ← get
  if d.bitsLeft = 0 then
    let b ← nextByte
    modify fun d => { d with current := b.toNat / 2, bitsLeft := 7 }
    return b.toNat % 2
  else
    set { d with current := d.current / 2, bitsLeft := d.bitsLeft - 1 }
    return d.current % 2

/-- A number of `n` bits, lowest bit first. -/
def nextBits : (n : Nat) → Decode Nat
  | 0 => return 0
  | n + 1 => do
    let low ← nextBit
    let high ← nextBits n
    return low + 2 * high

/-- Drops what is left of the byte whose bits are being read. -/
def alignToByte : Decode Unit := modify fun d => { d with current := 0, bitsLeft := 0 }

/-- Makes room for one byte: where the window is full, the piece ends. -/
def makeRoom : Decode Unit := do
  let d ← get
  if d.output.size % windowSize = 0 ∧ d.handedOn < d.output.size then
    set { d.cut (!d.chunk.isEmpty) with starved := d.isUsedUp }
    if d.isUsedUp && d.broken then throw .dry

/-- Puts out one byte. -/
def emit (b : UInt8) : Decode Unit := do
  makeRoom
  modify fun d => { d with output := d.output.push b }

/-- Puts out `n` bytes of the input. -/
def copyInput : (n : Nat) → Decode Unit
  | 0 => return ()
  | n + 1 => do
    makeRoom
    emit (← nextByte)
    copyInput n

/-- Puts out `n` bytes again that were put out `distance` bytes before. Before the first byte
there are zeros. -/
def copyOutput (distance : Nat) : (n : Nat) → Decode Unit
  | 0 => return ()
  | n + 1 => do
    let d ← get
    emit (if distance ≤ d.output.size then d.output.get! (d.output.size - distance) else 0)
    copyOutput distance n

/-- Decodes one symbol. `code` is the number read so far, `first` the first code of the length
reached and `index` the place of its symbol. -/
def decodeSymbol (symbols : Array Nat) :
    (counts : List Nat) → (code first index : Nat) → Decode Nat
  | [], _, _, _ => throw (.fault .deflateCorrupt)
  | count :: counts, code, first, index => do
    let code := code + (← nextBit)
    if code < first + count then
      return (symbols[index + (code - first)]?).getD 0
    else decodeSymbol symbols counts (2 * code) (2 * (first + count)) (index + count)

/-- Decodes one symbol of a code. -/
def HuffmanCode.decode (c : HuffmanCode) : Decode Nat := decodeSymbol c.symbols c.counts 0 0 0

/-- Base and number of extra bits of each length symbol from 257 on. -/
def lengthTable : Array (Nat × Nat) :=
  #[(3, 0), (4, 0), (5, 0), (6, 0), (7, 0), (8, 0), (9, 0), (10, 0), (11, 1), (13, 1), (15, 1),
    (17, 1), (19, 2), (23, 2), (27, 2), (31, 2), (35, 3), (43, 3), (51, 3), (59, 3), (67, 4),
    (83, 4), (99, 4), (115, 4), (131, 5), (163, 5), (195, 5), (227, 5), (258, 0)]

/-- Base and number of extra bits of each distance symbol. -/
def distanceTable : Array (Nat × Nat) :=
  #[(1, 0), (2, 0), (3, 0), (4, 0), (5, 1), (7, 1), (9, 2), (13, 2), (17, 3), (25, 3), (33, 4),
    (49, 4), (65, 5), (97, 5), (129, 6), (193, 6), (257, 7), (385, 7), (513, 8), (769, 8),
    (1025, 9), (1537, 9), (2049, 10), (3073, 10), (4097, 11), (6145, 11), (8193, 12), (12289, 12),
    (16385, 13), (24577, 13)]

/-- The number that a symbol of a table and its extra bits stand for. -/
def tableValue (table : Array (Nat × Nat)) (symbol : Nat) : Decode Nat :=
  match table[symbol]? with
  | some (base, extra) => do return base + (← nextBits extra)
  | none => throw (.fault .deflateCorrupt)

/-- Decodes symbols up to the end of the block. Every symbol uses up a bit, so `fuel` may be the
number of bits left. -/
def symbols (literal distance : HuffmanCode) : (fuel : Nat) → Decode Unit
  | 0 => throw .dry
  | fuel + 1 => do
    let symbol ← literal.decode
    if symbol < 256 then
      emit (UInt8.ofNat symbol)
      symbols literal distance fuel
    else if symbol = 256 then return ()
    else
      let length ← tableValue lengthTable (symbol - 257)
      let offset ← tableValue distanceTable (← distance.decode)
      copyOutput offset length
      symbols literal distance fuel

/-- The order in which the lengths of the length codes are sent. -/
def lengthOrder : List Nat := [16, 17, 18, 0, 8, 7, 9, 6, 10, 5, 11, 4, 12, 3, 13, 2, 14, 1, 15]

/-- A list of three-bit numbers. -/
def nextLengths : (n : Nat) → Decode (List Nat)
  | 0 => return []
  | n + 1 => do
    let first ← nextBits 3
    let rest ← nextLengths n
    return first :: rest

/-- Reads `wanted` code lengths in run-length form; `read` holds those read so far, latest first.
Every step adds one at least. -/
def codeLengths (code : HuffmanCode) (wanted : Nat) :
    (fuel : Nat) → (read : List Nat) → Decode (List Nat)
  | 0, _ => throw (.fault .deflateCorrupt)
  | fuel + 1, read => do
    if wanted ≤ read.length then
      if wanted < read.length then throw (.fault .deflateCorrupt)
      return read.reverse
    let symbol ← code.decode
    if symbol < 16 then codeLengths code wanted fuel (symbol :: read)
    else if symbol = 16 then
      match read with
      | [] => throw (.fault .deflateCorrupt)
      | last :: _ =>
        let n ← nextBits 2
        codeLengths code wanted fuel (List.replicate (3 + n) last ++ read)
    else
      let n ← if symbol = 17 then (3 + ·) <$> nextBits 3 else (11 + ·) <$> nextBits 7
      codeLengths code wanted fuel (List.replicate n 0 ++ read)

/-- The code with these lengths, or a fault. -/
def codeOf (mayLeaveGap : Bool) (lengths : List Nat) : Decode HuffmanCode :=
  match HuffmanCode.ofLengths? mayLeaveGap lengths with
  | some c => return c
  | none => throw (.fault .deflateCorrupt)

/-- The symbol that ends a block. -/
def endOfBlock : Nat := 256

/-- Reads the two codes that a block describes itself. The end of the block has to have a code. -/
def describedCodes : Decode (HuffmanCode × HuffmanCode) := do
  let literals := 257 + (← nextBits 5)
  let distances := 1 + (← nextBits 5)
  let sent := 4 + (← nextBits 4)
  if 286 < literals || 30 < distances then throw (.fault .deflateCorrupt)
  let lengths ← nextLengths sent
  let placed := (List.range 19).map fun s => ((lengthOrder.zip lengths).lookup s).getD 0
  let code ← codeOf false placed
  let all ← codeLengths code (literals + distances) (literals + distances + 1) []
  if all.getD endOfBlock 0 = 0 then throw (.fault .deflateCorrupt)
  let distance ← codeOf true (all.drop literals)
  let literal ← codeOf true (all.take literals)
  return (literal, distance)

/-- A stored block: its length, the complement of it, and the bytes. -/
def storedBlock : Decode Unit := do
  alignToByte
  let length ← nextBits 16
  let complement ← nextBits 16
  if length + complement ≠ 0xFFFF then throw (.fault .deflateCorrupt)
  copyInput length

/-- Decodes blocks up to the last one. Every block uses up bits, so `fuel` may be the number of
bits left. -/
def blocks : (fuel : Nat) → Decode Unit
  | 0 => throw .dry
  | fuel + 1 => do
    let last ← nextBit
    let kind ← nextBits 2
    match kind with
    | 0 => storedBlock
    | 1 => symbols HuffmanCode.fixedLiteral HuffmanCode.fixedDistance (fuel + 1)
    | 2 =>
      let (literal, distance) ← describedCodes
      symbols literal distance (fuel + 1)
    | _ => throw (.fault .deflateCorrupt)
    if last = 1 then return () else blocks fuel

end ImageBuild.Gzip
