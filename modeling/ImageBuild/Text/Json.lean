/-!
# `ImageBuild.Text.Json`: JSON values, writing and strict reading

`Json.render` writes a value in the shortest form: no blanks, object fields in their order,
control characters escaped, so the text never holds a line break. `Json.read?` reads one value and
nothing after it. It is strict: no leading zeros, no trailing commas, no raw control characters.

A text may spell half of a surrogate pair as an escape. Such a text is no string, but it may stand
where nobody looks at it; it is read as `none`.
-/

set_option autoImplicit false

namespace ImageBuild

/-- A JSON value. -/
inductive Json
  | null
  | bool (b : Bool)
  /-- A number that is spelled as a whole number; `-0` is not one. -/
  | int (n : Int)
  /-- Any other number, as it is spelled. -/
  | real (literal : List Char)
  /-- A text, or `none` for one with an unpaired surrogate. -/
  | str (s : Option String)
  | arr (items : List Json)
  /-- Fields in the order of the text; a key may come twice. -/
  | obj (fields : List (Option String × Json))
  deriving Repr, Inhabited

namespace Json

/-- A text. -/
def text (s : String) : Json := .str (some s)

/-- An object with these fields. -/
def record (fields : List (String × Json)) : Json := .obj (fields.map fun f => (some f.1, f.2))

/-! ### Writing -/

/-- The hexadecimal digit with this value. -/
def hexDigit (n : Nat) : Char := if n < 10 then Char.ofNat (48 + n) else Char.ofNat (87 + n)

/-- A character inside quotation marks. -/
def escape (c : Char) : List Char :=
  if c = '"' then ['\\', '"']
  else if c = '\\' then ['\\', '\\']
  else if c = '\x08' then ['\\', 'b']
  else if c = '\t' then ['\\', 't']
  else if c = '\n' then ['\\', 'n']
  else if c = '\x0c' then ['\\', 'f']
  else if c = '\r' then ['\\', 'r']
  else if c.toNat < 32 then ['\\', 'u', '0', '0', hexDigit (c.toNat / 16),
    hexDigit (c.toNat % 16)]
  else [c]

/-- A text in quotation marks. One that is no string is written as a lone surrogate. -/
def quoteChars : Option String → List Char
  | some s => '"' :: s.toList.flatMap escape ++ ['"']
  | none => ['"', '\\', 'u', 'd', '8', '0', '0', '"']

mutual

/-- A value as text. -/
def chars : Json → List Char
  | .null => ['n', 'u', 'l', 'l']
  | .bool true => ['t', 'r', 'u', 'e']
  | .bool false => ['f', 'a', 'l', 's', 'e']
  | .int n => (toString n).toList
  | .real literal => literal
  | .str s => quoteChars s
  | .arr [] => ['[', ']']
  | .arr (v :: rest) => '[' :: chars v ++ tailItems rest
  | .obj [] => ['{', '}']
  | .obj ((k, v) :: rest) => '{' :: quoteChars k ++ ':' :: chars v ++ tailFields rest

/-- The items after the first, with the closing bracket. -/
def tailItems : List Json → List Char
  | [] => [']']
  | v :: rest => ',' :: chars v ++ tailItems rest

/-- The fields after the first, with the closing brace. -/
def tailFields : List (Option String × Json) → List Char
  | [] => ['}']
  | (k, v) :: rest => ',' :: quoteChars k ++ ':' :: chars v ++ tailFields rest

end

/-- A value as text. -/
def render (v : Json) : String := String.ofList v.chars

/-! ### Reading -/

/-- The blanks between the parts of a value. -/
def isBlank (c : Char) : Bool := c == ' ' || c == '\n' || c == '\t' || c == '\r'

/-- The text from the first character on that is no blank. -/
def skipBlanks (cs : List Char) : List Char := cs.dropWhile isBlank

/-- The value of a hexadecimal digit. -/
def hexValue (c : Char) : Option Nat :=
  if '0' ≤ c && c ≤ '9' then some (c.toNat - 48)
  else if 'a' ≤ c && c ≤ 'f' then some (c.toNat - 87)
  else if 'A' ≤ c && c ≤ 'F' then some (c.toNat - 55)
  else none

/-- The value of four hexadecimal digits. -/
def hexWord (a b c d : Char) : Option Nat := do
  return 4096 * (← hexValue a) + 256 * (← hexValue b) + 16 * (← hexValue c) + (← hexValue d)

/-- What a one-letter escape stands for. -/
def simpleEscape (c : Char) : Option Char :=
  if c = '"' || c = '\\' || c = '/' then some c
  else if c = 'b' then some '\x08'
  else if c = 'f' then some '\x0c'
  else if c = 'n' then some '\n'
  else if c = 'r' then some '\r'
  else if c = 't' then some '\t'
  else none

/-- A string being read: the characters so far, latest first, the first half of a surrogate pair
if one was just read, and whether all halves found their other one. -/
structure Reading where
  chars : List Char
  high : Option Nat
  paired : Bool

namespace Reading

/-- Adds a character, which leaves a waiting half alone. -/
def push (r : Reading) (c : Char) : Reading := ⟨c :: r.chars, none, r.paired && r.high.isNone⟩

/-- Adds what a four-digit escape stands for. -/
def pushWord (r : Reading) (w : Nat) : Reading :=
  if 0xD800 ≤ w ∧ w < 0xDC00 then ⟨r.chars, some w, r.paired && r.high.isNone⟩
  else if 0xDC00 ≤ w ∧ w < 0xE000 then
    match r.high with
    | some h =>
      ⟨Char.ofNat (0x10000 + 0x400 * (h - 0xD800) + (w - 0xDC00)) :: r.chars, none, r.paired⟩
    | none => ⟨r.chars, none, false⟩
  else r.push (Char.ofNat w)

/-- The string that was read. -/
def finish (r : Reading) : Option String :=
  if r.paired && r.high.isNone then some (String.ofList r.chars.reverse) else none

end Reading

/-- Reads a string after its opening quotation mark. -/
def readString (r : Reading) : List Char → Option (Option String × List Char)
  | [] => none
  | '"' :: rest => some (r.finish, rest)
  | '\\' :: 'u' :: a :: b :: c :: d :: rest =>
    match hexWord a b c d with
    | some w => readString (r.pushWord w) rest
    | none => none
  | '\\' :: c :: rest =>
    match simpleEscape c with
    | some c => readString (r.push c) rest
    | none => none
  | c :: rest => if c.toNat < 32 || c = '\\' then none else readString (r.push c) rest

/-- Whether a character is a decimal digit. -/
def isDigit (c : Char) : Bool := '0' ≤ c && c ≤ '9'

/-- The number that decimal digits spell. -/
def digitsValue (cs : List Char) : Nat := cs.foldl (fun n c => 10 * n + (c.toNat - 48)) 0

/-- Splits decimal digits off the front; there has to be one. -/
def splitDigits (cs : List Char) : Option (List Char × List Char) :=
  let digits := cs.takeWhile isDigit
  if digits.isEmpty then none else some (digits, cs.dropWhile isDigit)

/-- Splits the fraction off the front, if there is one. -/
def splitFraction : List Char → Option (List Char × List Char)
  | '.' :: rest => (splitDigits rest).map fun (digits, after) => ('.' :: digits, after)
  | cs => some ([], cs)

/-- Splits the exponent off the front, if there is one. -/
def splitExponent : List Char → Option (List Char × List Char)
  | e :: rest =>
    if e = 'e' || e = 'E' then
      match rest with
      | '+' :: digits => (splitDigits digits).map fun (ds, after) => (e :: '+' :: ds, after)
      | '-' :: digits => (splitDigits digits).map fun (ds, after) => (e :: '-' :: ds, after)
      | digits => (splitDigits digits).map fun (ds, after) => (e :: ds, after)
    else some ([], e :: rest)
  | [] => some ([], [])

/-- Reads a number. -/
def readNumber (cs : List Char) : Option (Json × List Char) := do
  let (sign, cs) := match cs with
    | '-' :: rest => (['-'], rest)
    | _ => ([], cs)
  let (digits, cs) ← splitDigits cs
  if digits.head? = some '0' && 1 < digits.length then none
  let (fraction, cs) ← splitFraction cs
  let (exponent, cs) ← splitExponent cs
  if fraction.isEmpty && exponent.isEmpty && (sign.isEmpty || digits != ['0']) then
    let n : Int := digitsValue digits
    return (.int (if sign.isEmpty then n else -n), cs)
  else return (.real (sign ++ digits ++ fraction ++ exponent), cs)

mutual

/-- Reads one value. Every nested call is behind at least one character of the text, so twice its
length is enough fuel. -/
def readValue : (fuel : Nat) → List Char → Option (Json × List Char)
  | 0, _ => none
  | fuel + 1, cs =>
    match skipBlanks cs with
    | 'n' :: 'u' :: 'l' :: 'l' :: rest => some (.null, rest)
    | 't' :: 'r' :: 'u' :: 'e' :: rest => some (.bool true, rest)
    | 'f' :: 'a' :: 'l' :: 's' :: 'e' :: rest => some (.bool false, rest)
    | '"' :: rest => (readString ⟨[], none, true⟩ rest).map fun (s, after) => (.str s, after)
    | '[' :: rest =>
      match skipBlanks rest with
      | ']' :: after => some (.arr [], after)
      | _ => (readItems fuel rest).map fun (items, after) => (.arr items, after)
    | '{' :: rest =>
      match skipBlanks rest with
      | '}' :: after => some (.obj [], after)
      | _ => (readFields fuel rest).map fun (fields, after) => (.obj fields, after)
    | other => readNumber other

/-- Reads the items of an array, at least one, and the closing bracket. -/
def readItems : (fuel : Nat) → List Char → Option (List Json × List Char)
  | 0, _ => none
  | fuel + 1, cs =>
    match readValue fuel cs with
    | none => none
    | some (v, rest) =>
      match skipBlanks rest with
      | ']' :: after => some ([v], after)
      | ',' :: more => (readItems fuel more).map fun (items, after) => (v :: items, after)
      | _ => none

/-- Reads the fields of an object, at least one, and the closing brace. -/
def readFields : (fuel : Nat) → List Char → Option (List (Option String × Json) × List Char)
  | 0, _ => none
  | fuel + 1, cs =>
    match skipBlanks cs with
    | '"' :: rest =>
      match readString ⟨[], none, true⟩ rest with
      | none => none
      | some (key, rest) =>
        match skipBlanks rest with
        | ':' :: rest =>
          match readValue fuel rest with
          | none => none
          | some (v, rest) =>
            match skipBlanks rest with
            | '}' :: after => some ([(key, v)], after)
            | ',' :: more =>
              (readFields fuel more).map fun (fields, after) => ((key, v) :: fields, after)
            | _ => none
        | _ => none
    | _ => none

end

/-- Reads a text that holds one value and nothing else. -/
def readChars? (cs : List Char) : Option Json :=
  match readValue (2 * cs.length + 2) cs with
  | some (v, rest) => if (skipBlanks rest).isEmpty then some v else none
  | none => none

/-- Reads a text that holds one value and nothing else. -/
def read? (s : String) : Option Json := readChars? s.toList

end Json
end ImageBuild
