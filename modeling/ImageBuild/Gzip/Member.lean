import ImageBuild.Gzip.Checksum
import ImageBuild.Gzip.Inflate

/-!
# `ImageBuild.Gzip.Member`: gzip members

A gzip stream is one or more members: a header, a deflate stream, and a trailer with checksum and
length of what the stream decodes to. `Gzip.feed` is what reads of the decoded stream return,
faults included.
-/

set_option autoImplicit false

namespace ImageBuild.Gzip

/-- What a decoder is reading when its input ends. -/
inductive Phase
  | header
  | body
  /-- The trailer, of which nothing was read. -/
  | trailerStart
  | trailer
  deriving DecidableEq, Repr

/-- The next `n` bytes of input. -/
def nextBytes : (n : Nat) → Decode Bytes
  | 0 => return []
  | n + 1 => do
    let b ← nextByte
    let rest ← nextBytes n
    return b :: rest

/-- How long a text in a header may be. -/
def textLimit : Nat := 65535

/-- The bytes up to and with the next NUL, of which at most `left` are not NUL, latest first. -/
def nextText : (left : Nat) → Bytes → Decode Bytes
  | left, read => do
    let b ← nextByte
    if b = 0 then return b :: read
    else
      match left with
      | 0 => throw (.fault .gzipFieldTooLong)
      | left + 1 => nextText left (b :: read)

/-- The number whose bytes these are, lowest first. -/
def littleEndian (bytes : Bytes) : Nat := bytes.foldr (fun b n => b.toNat + 256 * n) 0

/-- Whether a flag of the header is set. -/
def hasFlag (flags : UInt8) (bit : UInt8) : Bool := flags &&& bit != 0

/-- Reads a member's header. -/
def header : Decode Unit := do
  let fixed ← nextBytes 10
  let flags := fixed.getD 3 0
  if fixed.take 3 ≠ [0x1F, 0x8B, 8] || flags &&& 0xE0 != 0 then throw (.fault .gzipHeader)
  let extra ←
    if hasFlag flags 4 then do
      let length ← nextBytes 2
      let field ← nextBytes (littleEndian length)
      pure (length ++ field)
    else pure []
  let name ← if hasFlag flags 8 then List.reverse <$> nextText textLimit [] else pure []
  let comment ← if hasFlag flags 16 then List.reverse <$> nextText textLimit [] else pure []
  if hasFlag flags 2 then
    let sum ← nextBytes 2
    let read := fixed ++ extra ++ name ++ comment
    if (crc32 (ByteArray.mk read.toArray)).toNat % 65536 ≠ littleEndian sum then
      throw (.fault .gzipChecksum)

/-- Reads a member's trailer after its first byte and compares it with what was decoded. -/
def trailerAfter (first : UInt8) : Decode Unit := do
  let rest ← nextBytes 7
  let fields := first :: rest
  let d ← get
  if littleEndian (fields.take 4) ≠ (crc32 d.output).toNat ||
      littleEndian (fields.drop 4) ≠ d.output.size % 0x100000000 then
    throw (.fault .gzipChecksum)

/-- Adds the finished pieces in front of what comes after them. -/
def feedOf (pieces : List (Bytes × Bool)) (after : Feed) : Feed :=
  pieces.foldl (fun next piece => .piece piece.1 piece.2 next) after

/-- How the feed ends when decoding stops in some phase. Where the reader fails while a piece has
just been finished, its fault overtakes the piece; and so does the end of the input if the piece
was decoded after that end was met. -/
def endOf (d : Decoder) (phase : Phase) : Halt → Feed
  | .fault f => .ended (some f) false
  | .dry =>
    if d.broken then .ended (some .broken) (phase == .body || phase == .trailerStart)
    else if phase == .body then .ended (some .deflateIncomplete) d.starved
    else .ended (some .gzipEnd) false

/-- Reads a member's body and trailer, and names the phase in which it stops. -/
def bodyAndTrailer (d : Decoder) : EStateM.Result (Phase × Halt) Decoder Unit :=
  match blocks (8 * d.inputSize + 8) d with
  | .error halt d => .error (.body, halt) d
  | .ok () d =>
    match (do alignToByte; modify (Decoder.cut false) : Decode Unit) d with
    | .error halt d => .error (.body, halt) d
    | .ok () d =>
      match nextByte d with
      | .error halt d => .error (.trailerStart, halt) d
      | .ok first d =>
        match trailerAfter first d with
        | .error halt d => .error (.trailer, halt) d
        | .ok () d => .ok () d

/-- Decodes member after member; a member uses up input, so `fuel` may be the number of bytes
left. -/
def members : (fuel : Nat) → Decoder → Feed
  | 0, d => feedOf d.pieces (.ended none false)
  | fuel + 1, d =>
    match header d with
    | .error halt d => feedOf d.pieces (endOf d .header halt)
    | .ok () d =>
      match bodyAndTrailer d with
      | .error (phase, halt) d => feedOf d.pieces (endOf d phase halt)
      | .ok () d =>
        if d.isUsedUp then
          feedOf d.pieces (.ended (if d.broken then some .broken else none) false)
        else members fuel { d with output := .empty, handedOn := 0 }

/-- How much input is asked for at a time. -/
def inputUnit : Nat := 32768

/-- A chunk as the reads that ask for `inputUnit` bytes get it. -/
def unitsOf (chunk : Bytes) : List Bytes :=
  if _h : inputUnit < chunk.length then chunk.take inputUnit :: unitsOf (chunk.drop inputUnit)
  else [chunk]
  termination_by chunk.length
  decreasing_by simp only [List.length_drop, inputUnit] at *; omega

/-- What reads of the stream return once it is decoded. -/
def feed (s : Stream) : Feed :=
  let d := Decoder.start (s.chunks.flatMap unitsOf) s.broken
  members (d.inputSize + 1) d

end ImageBuild.Gzip
