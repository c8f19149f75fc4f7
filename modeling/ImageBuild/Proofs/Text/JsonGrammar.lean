import ImageBuild.Text.Json
import Mathlib.Data.List.TakeWhile
import Mathlib.Data.Nat.Digits.Defs

/-!
# `ImageBuild.Proofs.Text.JsonGrammar`: which text is which JSON value

The reader of `Text/Json` goes through a text from left to right and gives up where it cannot go
on. The grammar here says which text stands for which value, rule by rule, and not how to find
that out: `Spells` for the parts of a text, `Denotes` for a whole text. That it is what is read is
`read?_eq_some_iff` in `Proofs/Text/JsonReading`.

A string comes in two steps. `Pieces` cuts what stands between the quotation marks into characters
and numbers of UTF-16 code units, and `Decodes` makes characters of these: a unit that is half of
a surrogate pair has to stand next to its other half.
-/

set_option autoImplicit false

namespace ImageBuild.Json

/-! ### The grammar -/

/-- Blanks between the parts of a value, or nothing. -/
def Blanks (cs : List Char) : Prop := ∀ c ∈ cs, c = ' ' ∨ c = '\n' ∨ c = '\t' ∨ c = '\r'

/-- What stands for a character of a string, or for half of one. -/
inductive Piece
  | char (c : Char)
  /-- A UTF-16 code unit that is given by its number. -/
  | unit (w : Nat)

/-- The letters that may stand behind a backslash, with what they stand for. -/
def letters : List (Char × Char) :=
  [('"', '"'), ('\\', '\\'), ('/', '/'), ('b', '\x08'), ('f', '\x0c'), ('n', '\n'), ('r', '\r'),
    ('t', '\t')]

/-- A hexadecimal digit with its value. -/
inductive IsHex (d : Char) : Nat → Prop
  | digit : '0' ≤ d → d ≤ '9' → IsHex d (d.toNat - '0'.toNat)
  | lower : 'a' ≤ d → d ≤ 'f' → IsHex d (10 + (d.toNat - 'a'.toNat))
  | upper : 'A' ≤ d → d ≤ 'F' → IsHex d (10 + (d.toNat - 'A'.toNat))

/-- The pieces between two quotation marks. -/
inductive Pieces : List Char → List Piece → Prop
  | nil : Pieces [] []
  | plain {c : Char} {cs : List Char} {ps : List Piece} : 32 ≤ c.toNat → c ≠ '"' → c ≠ '\\' →
    Pieces cs ps → Pieces (c :: cs) (.char c :: ps)
  | letter {l c : Char} {cs : List Char} {ps : List Piece} : (l, c) ∈ letters →
    Pieces cs ps → Pieces ('\\' :: l :: cs) (.char c :: ps)
  | number {a b c d : Char} {i j k l : Nat} {cs : List Char} {ps : List Piece} :
    IsHex a i → IsHex b j → IsHex c k → IsHex d l → Pieces cs ps →
    Pieces ('\\' :: 'u' :: a :: b :: c :: d :: cs)
      (.unit (4096 * i + 256 * j + 16 * k + l) :: ps)

/-- The first half of a surrogate pair. -/
def IsHigh (w : Nat) : Prop := 0xD800 ≤ w ∧ w < 0xDC00

/-- The second half of a surrogate pair. -/
def IsLow (w : Nat) : Prop := 0xDC00 ≤ w ∧ w < 0xE000

/-- The characters that pieces are, if every half of a surrogate pair is next to its other
half. -/
inductive Decodes : List Piece → List Char → Prop
  | nil : Decodes [] []
  | char {c : Char} {ps : List Piece} {cs : List Char} :
    Decodes ps cs → Decodes (.char c :: ps) (c :: cs)
  | unit {w : Nat} {ps : List Piece} {cs : List Char} : ¬ IsHigh w → ¬ IsLow w →
    Decodes ps cs → Decodes (.unit w :: ps) (Char.ofNat w :: cs)
  | pair {h l : Nat} {ps : List Piece} {cs : List Char} : IsHigh h → IsLow l → Decodes ps cs →
    Decodes (.unit h :: .unit l :: ps)
      (Char.ofNat (0x10000 + 0x400 * (h - 0xD800) + (l - 0xDC00)) :: cs)

/-- A string with its quotation marks. One with an unpaired half is no text. -/
inductive Quoted : List Char → Option String → Prop
  | text {inside : List Char} {ps : List Piece} {s : String} : Pieces inside ps →
    Decodes ps s.toList → Quoted ('"' :: inside ++ ['"']) (some s)
  | unpaired {inside : List Char} {ps : List Piece} : Pieces inside ps →
    (∀ cs, ¬ Decodes ps cs) → Quoted ('"' :: inside ++ ['"']) none

/-- Decimal digits, at least one. -/
def Digits (ds : List Char) : Prop := ds ≠ [] ∧ ∀ d ∈ ds, '0' ≤ d ∧ d ≤ '9'

/-- The digits of a whole number: the first is zero only if it is the only one. -/
def WholeDigits (ds : List Char) : Prop := Digits ds ∧ (ds.head? = some '0' → ds = ['0'])

/-- The number that decimal digits are. -/
def decimal (ds : List Char) : Nat :=
  Nat.ofDigits 10 (ds.map fun d => d.toNat - '0'.toNat).reverse

/-- The fraction of a number, or nothing. -/
inductive Fraction : List Char → Prop
  | none : Fraction []
  | some {ds : List Char} : Digits ds → Fraction ('.' :: ds)

/-- The exponent of a number, or nothing. -/
inductive Exponent : List Char → Prop
  | none : Exponent []
  | some {e : Char} {sign ds : List Char} : e = 'e' ∨ e = 'E' →
    sign = [] ∨ sign = ['+'] ∨ sign = ['-'] → Digits ds → Exponent (e :: (sign ++ ds))

/-- A number. One with a fraction or an exponent, and `-0`, is not a whole number. -/
inductive Number : List Char → Json → Prop
  | whole {ds : List Char} : WholeDigits ds → Number ds (.int (decimal ds))
  | negative {ds : List Char} : WholeDigits ds → ds ≠ ['0'] →
    Number ('-' :: ds) (.int (-(decimal ds : Int)))
  | real {sign ds fraction exponent : List Char} : sign = [] ∨ sign = ['-'] → WholeDigits ds →
    Fraction fraction → Exponent exponent →
    fraction ≠ [] ∨ exponent ≠ [] ∨ sign = ['-'] ∧ ds = ['0'] →
    Number (sign ++ ds ++ fraction ++ exponent) (.real (sign ++ ds ++ fraction ++ exponent))

/-- What a part of a text is: a value, or what stands between brackets or braces. -/
inductive Part
  | value (v : Json)
  | items (vs : List Json)
  | fields (fs : List (Option String × Json))

/-- The text of a part. -/
inductive Spells : List Char → Part → Prop
  | nullWord : Spells ['n', 'u', 'l', 'l'] (.value .null)
  | trueWord : Spells ['t', 'r', 'u', 'e'] (.value (.bool true))
  | falseWord : Spells ['f', 'a', 'l', 's', 'e'] (.value (.bool false))
  | number {cs : List Char} {v : Json} : Number cs v → Spells cs (.value v)
  | string {cs : List Char} {s : Option String} : Quoted cs s → Spells cs (.value (.str s))
  | emptyArray {blanks : List Char} : Blanks blanks →
    Spells ('[' :: blanks ++ [']']) (.value (.arr []))
  | array {cs : List Char} {vs : List Json} : Spells cs (.items vs) →
    Spells ('[' :: cs ++ [']']) (.value (.arr vs))
  | emptyObject {blanks : List Char} : Blanks blanks →
    Spells ('{' :: blanks ++ ['}']) (.value (.obj []))
  | object {cs : List Char} {fs : List (Option String × Json)} : Spells cs (.fields fs) →
    Spells ('{' :: cs ++ ['}']) (.value (.obj fs))
  | lastItem {a cs b : List Char} {v : Json} : Blanks a → Spells cs (.value v) → Blanks b →
    Spells (a ++ cs ++ b) (.items [v])
  | item {a cs b more : List Char} {v : Json} {vs : List Json} : Blanks a → Spells cs (.value v) →
    Blanks b → Spells more (.items vs) → Spells (a ++ cs ++ b ++ ',' :: more) (.items (v :: vs))
  | lastField {a key b c cs d : List Char} {k : Option String} {v : Json} : Blanks a →
    Quoted key k → Blanks b → Blanks c → Spells cs (.value v) → Blanks d →
    Spells (a ++ key ++ b ++ ':' :: (c ++ cs ++ d)) (.fields [(k, v)])
  | field {a key b c cs d more : List Char} {k : Option String} {v : Json}
    {fs : List (Option String × Json)} : Blanks a → Quoted key k → Blanks b → Blanks c →
    Spells cs (.value v) → Blanks d → Spells more (.fields fs) →
    Spells (a ++ key ++ b ++ ':' :: (c ++ cs ++ d ++ ',' :: more)) (.fields ((k, v) :: fs))

/-- A text that holds one value, and blanks around it. -/
def Denotes (s : String) (v : Json) : Prop :=
  ∃ before cs behind, s.toList = before ++ cs ++ behind ∧ Blanks before ∧ Spells cs (.value v) ∧
    Blanks behind

/-! ### Blanks -/

/-- The four blanks of the grammar are those that the reader skips. -/
theorem isBlank_iff (c : Char) :
    isBlank c = true ↔ c = ' ' ∨ c = '\n' ∨ c = '\t' ∨ c = '\r' := by
  simp [isBlank, or_assoc]

/-- Blanks are taken off the front. -/
theorem skipBlanks_append {blanks : List Char} (h : Blanks blanks) (cs : List Char) :
    skipBlanks (blanks ++ cs) = skipBlanks cs :=
  List.dropWhile_append_of_pos fun c hc => (isBlank_iff c).mpr (h c hc)

/-- What is skipped is blank. -/
theorem exists_blanks (cs : List Char) : ∃ blanks, Blanks blanks ∧ cs = blanks ++ skipBlanks cs :=
  ⟨cs.takeWhile isBlank, fun c hc => (isBlank_iff c).mp (List.mem_takeWhile_imp hc),
    List.takeWhile_append_dropWhile.symm⟩

/-- Nothing is skipped where no blank stands. -/
theorem skipBlanks_cons {c : Char} (h : isBlank c = false) (cs : List Char) :
    skipBlanks (c :: cs) = c :: cs := by
  unfold skipBlanks
  rw [List.dropWhile_cons, h]
  rfl

/-- Nothing is left exactly if all of it was blank. -/
theorem skipBlanks_eq_nil_iff (cs : List Char) : skipBlanks cs = [] ↔ Blanks cs := by
  unfold skipBlanks Blanks
  rw [List.dropWhile_eq_nil_iff]
  exact forall₂_congr fun c _ => isBlank_iff c

end ImageBuild.Json
