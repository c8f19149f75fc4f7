import ImageBuild.Path
import ImageBuild.Request.Fault
import ImageBuild.Text.Blank
import ImageBuild.Text.Number
import ImageBuild.Text.Utf8
import ImageBuild.Toml.Text
import ImageBuild.Toml.Value

/-!
# `ImageBuild.Config.Environment`: environment variables and the values they spell

A variable is a text, but settings want numbers and truth values too. `valueOf` reads a text as
the value that it spells in a loose syntax of lists, tables, numbers and quoted strings; a text
that spells none stands for itself. The escapes of a quoted string are resolved on a copy of what
stands before the first of them, and that copy is cut by bytes: a string in which the cut would
divide a character cannot be read at all.
-/

set_option autoImplicit false

namespace ImageBuild.Config

open Toml (Entries Value)

/-! ### Values -/

/-- The characters that end a plain word inside a list or a table. -/
def isSeparator (c : Char) : Bool := c == ',' || c == '{' || c == '}' || c == '[' || c == ']'

/-- The blanks between the parts of a value. -/
def isGap (c : Char) : Bool := c == ' ' || c == '\t' || c == '\n' || c == '\x0c' || c == '\r'

def skipGap (cs : List Char) : List Char := cs.dropWhile isGap

/-- Whether a text with a point spells a number: digits before or after the point, perhaps a sign
and an exponent. -/
def isDecimal (cs : List Char) : Bool :=
  let unsigned (cs : List Char) : List Char :=
    match cs with
    | '+' :: rest | '-' :: rest => rest
    | cs => cs
  let body := unsigned cs
  let whole := body.takeWhile Char.isDigit
  match body.drop whole.length with
  | '.' :: rest =>
    let places := rest.takeWhile Char.isDigit
    !(whole.isEmpty && places.isEmpty) &&
      match rest.drop places.length with
      | [] => true
      | mark :: rest =>
        (mark == 'e' || mark == 'E') && !(unsigned rest).isEmpty &&
          (unsigned rest).all Char.isDigit
  | _ => false

/-- The integer that a text spells: from `-2 ^ 63` up to `2 ^ 64`, perhaps with a sign. -/
def integer? (cs : List Char) : Option Int :=
  let number (digits : List Char) : Option Nat :=
    if digits.isEmpty || !digits.all Char.isDigit then none
    else some (digits.foldl (fun n c => 10 * n + (c.toNat - 48)) 0)
  match cs with
  | '-' :: rest =>
    (number rest).bind fun n => if n ≤ Text.signedLimit then some (-(n : Int)) else none
  | '+' :: rest => (number rest).bind fun n => if n < Text.wordLimit then some (n : Int) else none
  | cs => (number cs).bind fun n => if n < Text.wordLimit then some (n : Int) else none

/-- The value of a plain word. -/
def plainValue (cs : List Char) : Value :=
  if cs.contains '.' && isDecimal cs then .float (String.ofList cs)
  else
    match integer? cs with
    | some n => .integer n
    | none => .text (String.ofList cs)

/-- A plain word, as far as the next separator. -/
def plain (cs : List Char) : Value × List Char :=
  let word := cs.takeWhile fun c => !isSeparator c
  (plainValue (Text.trimChars word), cs.drop word.length)

/-- Why a text is not read as the value that it may spell. -/
inductive ValueFault
  /-- It spells none, and stands for itself. -/
  | unspelled
  /-- A quoted string in it has its first escape where the string cannot be cut. -/
  | dividedCharacter
  deriving DecidableEq, Repr

/-- The text of a quoted string as it is written, as far as the closing quotation mark. -/
def quotedSpan : List Char → Except ValueFault (List Char × List Char)
  | [] => .error .unspelled
  | '"' :: rest => .ok ([], rest)
  | '\\' :: c :: rest => do
    let (span, rest) ← quotedSpan rest
    return ('\\' :: c :: span, rest)
  | c :: rest => do
    let (span, rest) ← quotedSpan rest
    return (c :: span, rest)

/-- What an escape leaves of the characters before it: as many bytes as there are characters. -/
def keptBefore? (front : List Char) : Option (List Char) :=
  (Utf8.decode? ((Utf8.encode (String.ofList front)).take front.length)).map String.toList

/-- The text that a written one stands for, after its first escape. -/
def unescapeRest : List Char → Except ValueFault (List Char)
  | [] => .ok []
  | '\\' :: rest =>
    match Toml.escape? rest with
    | some (c, n) => do return c :: (← unescapeRest (rest.drop n))
    | none => .error .unspelled
  | c :: rest =>
    if Toml.isPlain c then do return c :: (← unescapeRest rest) else .error .unspelled
  termination_by cs => cs.length
  decreasing_by all_goals simp only [List.length_drop, List.length_cons]; omega

/-- The text that a written one stands for. -/
def unescape (span : List Char) : Except ValueFault (List Char) :=
  let front := span.takeWhile (· != '\\')
  if !front.all Toml.isPlain then .error .unspelled
  else
    match span.drop front.length with
    | [] => .ok span
    | rest =>
      match keptBefore? front with
      | some kept => do return kept ++ (← unescapeRest rest)
      | none => .error .dividedCharacter

/-- A quoted string after its quotation mark. -/
def quoted (cs : List Char) : Except ValueFault (String × List Char) := do
  let (span, rest) ← quotedSpan cs
  return (String.ofList (← unescape span), rest)

/-- A key of a table. -/
def tableKey : List Char → Except ValueFault (String × List Char)
  | '"' :: rest => quoted rest
  | cs =>
    let word := cs.takeWhile Toml.isKeyChar
    if word.isEmpty then .error .unspelled else .ok (String.ofList word, cs.drop word.length)

mutual

/-- A value with the blanks around it. -/
def value : (fuel : Nat) → List Char → Except ValueFault (Value × List Char)
  | 0, _ => .error .unspelled
  | fuel + 1, cs => do
    let (v, rest) ← match skipGap cs with
      | 't' :: 'r' :: 'u' :: 'e' :: rest => pure (.boolean true, rest)
      | 'f' :: 'a' :: 'l' :: 's' :: 'e' :: rest => pure (.boolean false, rest)
      | '{' :: rest => (tableEntries fuel rest).map fun (es, rest) => (.table es, rest)
      | '[' :: rest => (listItems fuel rest).map fun (vs, rest) => (.array vs, rest)
      | '"' :: rest => (quoted rest).map fun (s, rest) => (.text s, rest)
      | '\'' :: c :: '\'' :: rest => pure (.text (String.ofList [c]), rest)
      | '\'' :: _ => .error .unspelled
      | cs => pure (plain cs)
    return (v, skipGap rest)

/-- The values of a list after its bracket or after a comma. -/
def listItems : (fuel : Nat) → List Char → Except ValueFault (List Value × List Char)
  | 0, _ => .error .unspelled
  | _, ']' :: rest => .ok ([], rest)
  | fuel + 1, cs => do
    let (v, rest) ← value fuel cs
    match rest with
    | ',' :: rest =>
      let (vs, rest) ← listItems fuel rest
      return (v :: vs, rest)
    | ']' :: rest => return ([v], rest)
    | _ => .error .unspelled

/-- The entries of a table after its brace or after a comma. -/
def tableEntries : (fuel : Nat) → List Char → Except ValueFault (Entries × List Char)
  | 0, _ => .error .unspelled
  | _, '}' :: rest => .ok ([], rest)
  | fuel + 1, cs => do
    let (key, rest) ← tableKey (skipGap cs)
    match skipGap rest with
    | '=' :: rest =>
      let (v, rest) ← value fuel rest
      match rest with
      | ',' :: rest =>
        let (es, rest) ← tableEntries fuel rest
        return ((key, v) :: es, rest)
      | '}' :: rest => return ([(key, v)], rest)
      | _ => .error .unspelled
    | _ => .error .unspelled

end

/-- The value that a text spells; the text itself, blanks and all, if it spells none; nothing if a
string in it cannot be read. -/
def valueOf (s : String) : Option Value :=
  match value (2 * s.length + 2) s.toList with
  | .ok (v, []) => some v
  | .ok _ | .error .unspelled => some (.text s)
  | .error .dividedCharacter => none

/-! ### Variables -/

/-- Environment variables in their order; of variables with one name, the last counts. -/
abbrev Environment := List (String × String)

namespace Environment

/-- The value of a variable. -/
def get? (env : Environment) (name : String) : Option String := env.reverse.lookup name

/-- The home directory that the system knows for the user of the program. -/
def systemHome : String := "/root"

/-- The home directory: what the variable for it says, or what the system knows if that says
nothing. -/
def home (env : Environment) : String :=
  match env.get? "HOME" with
  | some dir => if dir.isEmpty then systemHome else dir
  | none => systemHome

end Environment

/-- What the names of variables with settings start with, in lower case. -/
def settingsStem : List Char := ['k', 'i', 'l', 'n', '_']

/-- The setting that a variable belongs to, in lower case, and whether it is a part of it. Blanks
around the name and around what follows the stem count for nothing. -/
def settingName? (name : String) : Option (String × Bool) :=
  let lower := (Text.trimChars name.toList).map Char.toLower
  if settingsStem.isPrefixOf lower then
    let parts := (Text.trimChars (lower.drop settingsStem.length)).splitOn '.'
    if parts.any (·.isEmpty) then none
    else some (String.ofList (parts.headD []), decide (1 < parts.length))
  else none

/-- The setting of one variable, if it belongs to one. A part of a setting makes it a table. -/
def settingOf? (entry : String × String) : Except BuildFault (Option (String × Value)) :=
  match settingName? entry.1, valueOf entry.2 with
  | none, _ => .ok none
  | some _, none => .error (.unreadableVariable entry.1)
  | some (key, true), some _ => .ok (some (key, .table []))
  | some (key, false), some v => .ok (some (key, v))

/-- The settings in the environment, the last variable first. -/
def Environment.settings (env : Environment) : Except BuildFault Entries := do
  return ((← env.mapM settingOf?).filterMap id).reverse

end ImageBuild.Config
