import ImageBuild.Text.Json

/-!
# `ImageBuild.Toml.Text`: blanks, comments, strings and keys

The four kinds of strings: basic strings with escapes and literal ones without, each on one line
or on many. Each reader takes the characters from where the text begins and answers what it read
and what is left; `none` if there is no such text.
-/

set_option autoImplicit false

namespace ImageBuild.Toml

/-- The blanks inside a line. -/
def isSpace (c : Char) : Bool := c == ' ' || c == '\t'

def skipSpace (cs : List Char) : List Char := cs.dropWhile isSpace

/-- What is left after a line break. -/
def afterBreak? : List Char → Option (List Char)
  | '\n' :: rest => some rest
  | '\r' :: '\n' :: rest => some rest
  | _ => none

/-- The characters that need no escape: all but controls, of which the tab is allowed. -/
def isPlain (c : Char) : Bool := c == '\t' || (' ' ≤ c && c != '\x7f')

/-- Skips a comment, if there is one. -/
def skipComment : List Char → List Char
  | '#' :: rest => rest.dropWhile isPlain
  | cs => cs

/-- What is left after the end of a line, which may have a comment before it. -/
def afterLine? (cs : List Char) : Option (List Char) :=
  match skipComment (skipSpace cs) with
  | [] => some []
  | cs => afterBreak? cs

/-- How many blanks and line breaks are in front. -/
def blankRun : List Char → Nat
  | '\r' :: '\n' :: rest => blankRun rest + 2
  | c :: rest => if isSpace c || c == '\n' then blankRun rest + 1 else 0
  | [] => 0

/-- Skips blanks, line breaks and comments. -/
def skipLines : (fuel : Nat) → List Char → List Char
  | 0, cs => cs
  | fuel + 1, cs =>
    match cs.drop (blankRun cs) with
    | '#' :: rest => skipLines fuel (rest.dropWhile isPlain)
    | cs => cs

/-! ### Escapes -/

/-- The character with this number, unless it is half of a surrogate pair or out of range. -/
def scalar? (n : Nat) : Option Char :=
  if n.isValidChar then some (Char.ofNat n) else none

/-- The number that hexadecimal digits spell. -/
def hexNumber (cs : List Char) : Option Nat :=
  cs.foldlM (fun n c => (Json.hexValue c).map (16 * n + ·)) 0

/-- The character that an escape stands for, given what follows the backslash, and how many
characters of it belong to the escape. -/
def escape? : List Char → Option (Char × Nat)
  | 'b' :: _ => some ('\x08', 1)
  | 't' :: _ => some ('\t', 1)
  | 'n' :: _ => some ('\n', 1)
  | 'f' :: _ => some ('\x0c', 1)
  | 'r' :: _ => some ('\r', 1)
  | '"' :: _ => some ('"', 1)
  | '\\' :: _ => some ('\\', 1)
  | 'u' :: rest => if rest.length < 4 then none else (hex (rest.take 4)).map (·, 5)
  | 'U' :: rest => if rest.length < 8 then none else (hex (rest.take 8)).map (·, 9)
  | _ => none
where
  hex (cs : List Char) : Option Char := (hexNumber cs).bind scalar?

/-! ### Strings -/

/-- Puts characters before what was read. -/
def prepend (front : List Char) (r : Option (List Char × List Char)) :
    Option (List Char × List Char) :=
  r.map fun (cs, rest) => (front ++ cs, rest)

/-- A basic string after its quotation mark. -/
def basicString : List Char → Option (List Char × List Char)
  | [] => none
  | '"' :: rest => some ([], rest)
  | '\\' :: rest =>
    match escape? rest with
    | some (c, n) => prepend [c] (basicString (rest.drop n))
    | none => none
  | c :: rest => if isPlain c then prepend [c] (basicString rest) else none
  termination_by cs => cs.length
  decreasing_by all_goals simp only [List.length_drop, List.length_cons]; omega

/-- A literal string after its quotation mark. -/
def literalString : List Char → Option (List Char × List Char)
  | [] => none
  | '\'' :: rest => some ([], rest)
  | c :: rest => if isPlain c then prepend [c] (literalString rest) else none

/-- If three or more quotation marks in front end a string, the ones that still belong to it, and
what is left. -/
def closing? (mark : Char) (cs : List Char) : Option (List Char × List Char) :=
  let run := (cs.takeWhile (· == mark)).length
  if run < 3 then none else some (List.replicate (min (run - 3) 2) mark, cs.drop (min run 5))

/-- A basic string on many lines after its quotation marks. A backslash at the end of a line joins
it to the next text. -/
def basicLines : List Char → Option (List Char × List Char)
  | [] => none
  | '\\' :: rest =>
    if (afterBreak? (skipSpace rest)).isSome then basicLines (rest.drop (blankRun rest))
    else
      match escape? rest with
      | some (c, n) => prepend [c] (basicLines (rest.drop n))
      | none => none
  | '\r' :: '\n' :: rest => prepend ['\n'] (basicLines rest)
  | c :: rest =>
    match closing? '"' (c :: rest) with
    | some r => some r
    | none => if isPlain c || c == '\n' then prepend [c] (basicLines rest) else none
  termination_by cs => cs.length
  decreasing_by all_goals simp only [List.length_drop, List.length_cons]; omega

/-- A literal string on many lines after its quotation marks. -/
def literalLines : List Char → Option (List Char × List Char)
  | [] => none
  | '\r' :: '\n' :: rest => prepend ['\n'] (literalLines rest)
  | c :: rest =>
    match closing? '\'' (c :: rest) with
    | some r => some r
    | none => if isPlain c || c == '\n' then prepend [c] (literalLines rest) else none

/-- Skips a line break right after the quotation marks of a string on many lines. -/
def skipFirstBreak (cs : List Char) : List Char := (afterBreak? cs).getD cs

/-- A string of any kind. -/
def string : List Char → Option (List Char × List Char)
  | '"' :: '"' :: '"' :: rest => basicLines (skipFirstBreak rest)
  | '\'' :: '\'' :: '\'' :: rest => literalLines (skipFirstBreak rest)
  | '"' :: rest => basicString rest
  | '\'' :: rest => literalString rest
  | _ => none

/-! ### Keys -/

/-- The characters of keys without quotation marks. -/
def isKeyChar (c : Char) : Bool := c.isAlphanum || c == '_' || c == '-'

/-- One part of a key. -/
def keyPart : List Char → Option (String × List Char)
  | '"' :: rest => (basicString rest).map fun (cs, rest) => (String.ofList cs, rest)
  | '\'' :: rest => (literalString rest).map fun (cs, rest) => (String.ofList cs, rest)
  | cs =>
    let part := cs.takeWhile isKeyChar
    if part.isEmpty then none else some (String.ofList part, cs.drop part.length)

/-- The parts of a key, with dots and blanks between them. -/
def keyPath : (fuel : Nat) → List Char → Option (List String × List Char)
  | 0, _ => none
  | fuel + 1, cs => do
    let (part, rest) ← keyPart (skipSpace cs)
    match skipSpace rest with
    | '.' :: rest =>
      let (parts, rest) ← keyPath fuel rest
      return (part :: parts, rest)
    | rest => return ([part], rest)

end ImageBuild.Toml
