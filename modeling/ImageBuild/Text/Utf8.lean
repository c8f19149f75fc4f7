/-!
# `ImageBuild.Text.Utf8`: bytes and the text they hold

File names, archive members and program output are bytes first. `Utf8.pieces` reads a byte list as
well-formed characters and ill-formed stretches; strict decoding (`Utf8.decode?`) wants no
ill-formed stretch, and display decoding (`Utf8.decodeLossy`) shows each of them as one U+FFFD.
An ill-formed stretch is a maximal subpart: the longest beginning of a well-formed sequence, or
one byte that begins none.
-/

set_option autoImplicit false

namespace ImageBuild

/-- A byte string, the form of every file name and file content. -/
abbrev Bytes := List UInt8

namespace Utf8

/-- The bytes of one text. -/
def encode (s : String) : Bytes := s.toList.flatMap String.utf8EncodeChar

/-- A byte list as text: a character, or an ill-formed stretch of the given length. -/
inductive Piece
  | char (c : Char)
  | invalid (length : Nat)
  deriving Repr, DecidableEq

/-- A byte of the form `10xxxxxx`, which continues a sequence. -/
def isContinuation (b : UInt8) : Bool := 0x80 ≤ b && b ≤ 0xBF

/-- The six payload bits of a continuation byte. -/
def payload (b : UInt8) : Nat := b.toNat % 64

/-- Which second bytes may follow a leading byte. The narrow ranges keep out overlong forms,
surrogates and what lies beyond U+10FFFF. -/
def secondRange (lead : UInt8) : UInt8 × UInt8 :=
  if lead == 0xE0 then (0xA0, 0xBF)
  else if lead == 0xED then (0x80, 0x9F)
  else if lead == 0xF0 then (0x90, 0xBF)
  else if lead == 0xF4 then (0x80, 0x8F)
  else (0x80, 0xBF)

/-- How many bytes a sequence with this leading byte has; `0` if no sequence begins so. -/
def sequenceLength (lead : UInt8) : Nat :=
  if lead < 0x80 then 1
  else if lead < 0xC2 then 0
  else if lead < 0xE0 then 2
  else if lead < 0xF0 then 3
  else if lead < 0xF5 then 4
  else 0

/-- The piece that begins with `lead`, and how many of the bytes after it belong to it. -/
def headPiece (lead : UInt8) (rest : Bytes) : Piece × Nat :=
  let fits (b : UInt8) : Bool := (secondRange lead).1 ≤ b && b ≤ (secondRange lead).2
  match sequenceLength lead with
  | 1 => (.char (Char.ofNat lead.toNat), 0)
  | 2 =>
    match rest with
    | b :: _ =>
      if fits b then (.char (Char.ofNat (lead.toNat % 32 * 64 + payload b)), 1)
      else (.invalid 1, 0)
    | [] => (.invalid 1, 0)
  | 3 =>
    match rest with
    | b :: c :: _ =>
      if !fits b then (.invalid 1, 0)
      else if !isContinuation c then (.invalid 2, 1)
      else (.char (Char.ofNat (lead.toNat % 16 * 4096 + payload b * 64 + payload c)), 2)
    | [b] => if fits b then (.invalid 2, 1) else (.invalid 1, 0)
    | [] => (.invalid 1, 0)
  | 4 =>
    match rest with
    | b :: c :: d :: _ =>
      if !fits b then (.invalid 1, 0)
      else if !isContinuation c then (.invalid 2, 1)
      else if !isContinuation d then (.invalid 3, 2)
      else
        (.char (Char.ofNat
          (lead.toNat % 8 * 262144 + payload b * 4096 + payload c * 64 + payload d)), 3)
    | [b, c] =>
      if !fits b then (.invalid 1, 0)
      else if !isContinuation c then (.invalid 2, 1)
      else (.invalid 3, 2)
    | [b] => if fits b then (.invalid 2, 1) else (.invalid 1, 0)
    | [] => (.invalid 1, 0)
  | _ => (.invalid 1, 0)

/-- A byte list cut into characters and ill-formed stretches. -/
def pieces : Bytes → List Piece
  | [] => []
  | lead :: rest =>
    let head := headPiece lead rest
    head.1 :: pieces (rest.drop head.2)
  termination_by bytes => bytes.length
  decreasing_by simp only [List.length_drop, List.length_cons]; omega

/-- The same cutting with the pieces collected back to front, so that long content needs no deep
stack. -/
def piecesInto (collected : List Piece) : Bytes → List Piece
  | [] => collected.reverse
  | lead :: rest =>
    let head := headPiece lead rest
    piecesInto (head.1 :: collected) (rest.drop head.2)
  termination_by bytes => bytes.length
  decreasing_by simp only [List.length_drop, List.length_cons]; omega

/-- What was collected comes out in order before the pieces that are still to come. -/
theorem piecesInto_eq (collected : List Piece) (bytes : Bytes) :
    piecesInto collected bytes = collected.reverse ++ pieces bytes := by
  induction h : bytes.length using Nat.strongRecOn generalizing bytes collected with
  | ind n ih =>
    cases bytes with
    | nil => simp [piecesInto, pieces]
    | cons lead rest =>
      rw [piecesInto, pieces]
      rw [ih (rest.drop (headPiece lead rest).2).length
        (by simp only [List.length_cons] at h; simp only [List.length_drop]; omega) _ _ rfl]
      simp

/-- The character of a well-formed piece. -/
def Piece.char? : Piece → Option Char
  | .char c => some c
  | .invalid _ => none

/-- The character a piece is shown as. -/
def Piece.shown : Piece → Char
  | .char c => c
  | .invalid _ => '\uFFFD'

/-- The text of well-formed bytes. -/
def decode? (bytes : Bytes) : Option String :=
  ((piecesInto [] bytes).mapM Piece.char?).map String.ofList

/-- The text of any bytes, each ill-formed stretch shown as U+FFFD. -/
def decodeLossy (bytes : Bytes) : String :=
  String.ofList ((piecesInto [] bytes).map Piece.shown)

/-- Whether the bytes are well-formed text. -/
def isValid (bytes : Bytes) : Bool := (decode? bytes).isSome

end Utf8
end ImageBuild
