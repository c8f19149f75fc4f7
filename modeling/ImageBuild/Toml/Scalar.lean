import ImageBuild.Text.Instant
import ImageBuild.Text.Number
import ImageBuild.Toml.Text
import ImageBuild.Toml.Value

/-!
# `ImageBuild.Toml.Scalar`: numbers, times and truth values

A value that is no string and no collection is one word. `scalar?` is the value that a word stands
for. Integers have 64 bits with sign; a float may not be so large that no double is near it.
-/

set_option autoImplicit false

namespace ImageBuild.Toml

/-- The digits of a number, between which single underscores may stand. -/
def grouped (isDigit : Char → Bool) : List Char → Option (List Char)
  | [] => none
  | [c] => if isDigit c then some [c] else none
  | c :: '_' :: rest => if isDigit c then (grouped isDigit rest).map (c :: ·) else none
  | c :: rest => if isDigit c then (grouped isDigit rest).map (c :: ·) else none

/-- The number that digits spell. -/
def numberOf (base : Nat) (digits : List Char) : Nat :=
  digits.foldl (fun n c => base * n + (Json.hexValue c).getD 0) 0

/-- A sign and what follows it; no sign is a positive one. -/
def splitSign : List Char → Bool × List Char
  | '-' :: rest => (true, rest)
  | '+' :: rest => (false, rest)
  | cs => (false, cs)

/-- The digits of a whole number without leading zeros. -/
def wholeDigits (cs : List Char) : Option (List Char) :=
  match grouped Char.isDigit cs with
  | some digits => if digits.head? == some '0' && 1 < cs.length then none else some digits
  | none => none

/-- The integer, if it has 64 bits. -/
def inRange (n : Int) : Option Int := if Text.isSigned n then some n else none

/-- The integer that a word spells. -/
def integer? (cs : List Char) : Option Int :=
  let based (base : Nat) (digits : List Char) : Option Int :=
    let isDigit (c : Char) : Bool := (Json.hexValue c).any (· < base)
    (grouped isDigit digits).bind fun ds => inRange (numberOf base ds)
  match cs with
  | '0' :: 'x' :: rest => based 16 rest
  | '0' :: 'o' :: rest => based 8 rest
  | '0' :: 'b' :: rest => based 2 rest
  | cs =>
    let (negative, rest) := splitSign cs
    (wholeDigits rest).bind fun ds =>
      inRange (if negative then -(numberOf 10 ds : Int) else numberOf 10 ds)

/-- The least number that is nearer to infinity than to a double, `2 ^ 1024 - 2 ^ 970`. -/
def floatLimit : Nat := (1 <<< 54 - 1) <<< 970

/-- A power of ten. -/
def powerOfTen (exponent : Nat) : Nat := Nat.pow 10 exponent

/-- Whether digits times a power of ten are too large for a double. -/
def isTooLarge (digits : List Char) (exponent : Int) : Bool :=
  let n := numberOf 10 digits
  let size : Int := (Nat.toDigits 10 n).length + exponent
  if n = 0 || size < 300 then false
  else if 310 < size then true
  else if 0 ≤ exponent then floatLimit ≤ n * powerOfTen exponent.toNat
  else floatLimit * powerOfTen (-exponent).toNat ≤ n

/-- The value of an exponent after its letter. -/
def exponent? (cs : List Char) : Option Int :=
  let (negative, rest) := splitSign cs
  (grouped Char.isDigit rest).map fun ds =>
    if negative then -(numberOf 10 ds : Int) else numberOf 10 ds

/-- The exponent at the end of a float. -/
def tailExponent? : List Char → Option Int
  | 'e' :: rest => exponent? rest
  | 'E' :: rest => exponent? rest
  | _ => none

/-- Whether a word spells a float. -/
def isFloat (cs : List Char) : Bool :=
  let (negative, rest) := splitSign cs
  if rest = ['i', 'n', 'f'] || rest = ['n', 'a', 'n'] then true
  else
    let isPart (c : Char) : Bool := c.isDigit || c == '_'
    let whole := rest.takeWhile isPart
    let fits (digits : List Char) (exponent : Int) : Bool :=
      negative || !isTooLarge digits exponent
    match wholeDigits whole, rest.drop whole.length with
    | some ds, '.' :: rest =>
      let part := rest.takeWhile isPart
      match grouped Char.isDigit part with
      | none => false
      | some places =>
        match rest.drop part.length with
        | [] => fits (ds ++ places) (-places.length)
        | tail =>
          match tailExponent? tail with
          | some e => fits (ds ++ places) (e - places.length)
          | none => false
    | some ds, tail =>
      match tailExponent? tail with
      | some e => fits ds e
      | none => false
    | none, _ => false

/-! ### Times -/

/-- The number of two digits in front, if it is at most `limit`. -/
def twoDigits (limit : Nat) : List Char → Option (Nat × List Char)
  | a :: b :: rest =>
    if a.isDigit && b.isDigit && numberOf 10 [a, b] ≤ limit then some (numberOf 10 [a, b], rest)
    else none
  | _ => none

/-- What is left after a character. -/
def after (c : Char) : List Char → Option (List Char)
  | d :: rest => if c = d then some rest else none
  | [] => none

/-- What is left after a date. -/
def afterDate? (cs : List Char) : Option (List Char) := do
  if cs.length < 4 || !(cs.take 4).all Char.isDigit then none
  let rest ← after '-' (cs.drop 4)
  let (month, rest) ← twoDigits 12 rest
  let rest ← after '-' rest
  let (day, rest) ← twoDigits 31 rest
  if 1 ≤ month ∧ 1 ≤ day ∧
    day ≤ Instant.monthLength (numberOf 10 (cs.take 4)) month then some rest
  else none

/-- What is left after a time of day. -/
def afterTime? (cs : List Char) : Option (List Char) := do
  let (_, rest) ← twoDigits 23 cs
  let rest ← after ':' rest
  let (_, rest) ← twoDigits 59 rest
  let rest ← after ':' rest
  let (_, rest) ← twoDigits 60 rest
  match rest with
  | '.' :: rest =>
    if rest.head?.any Char.isDigit then some (rest.dropWhile Char.isDigit) else none
  | rest => some rest

/-- Whether a text is a distance from universal time. -/
def isOffset : List Char → Bool
  | ['Z'] | ['z'] => true
  | sign :: rest =>
    (sign == '+' || sign == '-') &&
      (do
        let (_, rest) ← twoDigits 23 rest
        let rest ← after ':' rest
        let (_, rest) ← twoDigits 59 rest
        return rest.isEmpty).getD false
  | [] => false

/-- Whether a word is a date, a time of day, or both, with or without a distance from universal
time. -/
def isDateTime (cs : List Char) : Bool :=
  match afterDate? cs with
  | some [] => true
  | some (mark :: rest) =>
    (mark == 'T' || mark == 't' || mark == ' ') &&
      (match afterTime? rest with
        | some [] => true
        | some tail => isOffset tail
        | none => false)
  | none => afterTime? cs == some []

/-! ### Words -/

/-- The characters of words. -/
def isWordChar (c : Char) : Bool :=
  c.isAlphanum || c == '_' || c == '+' || c == '-' || c == '.' || c == ':'

/-- The value of a word. -/
def scalarOf? (cs : List Char) : Option Value :=
  if cs = ['t', 'r', 'u', 'e'] then some (.boolean true)
  else if cs = ['f', 'a', 'l', 's', 'e'] then some (.boolean false)
  else if isDateTime cs then some (.dateTime (String.ofList cs))
  else if isFloat cs then some (.float (String.ofList cs))
  else (integer? cs).map .integer

/-- The word in front. A blank may stand between a date and a time of day. -/
def word (cs : List Char) : List Char :=
  let first := cs.takeWhile isWordChar
  match cs.drop first.length with
  | ' ' :: c :: rest =>
    if c.isDigit && afterDate? first == some [] then
      first ++ ' ' :: (c :: rest).takeWhile isWordChar
    else first
  | _ => first

/-- A value that is one word. -/
def scalar (cs : List Char) : Option (Value × List Char) :=
  (scalarOf? (word cs)).map (·, cs.drop (word cs).length)

end ImageBuild.Toml
