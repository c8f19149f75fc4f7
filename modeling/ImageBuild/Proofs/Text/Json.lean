import ImageBuild.Text.Json
import Mathlib.Data.List.TakeWhile

/-!
# `ImageBuild.Proofs.Text.Json`: what is written is read back

Of JSON values, requests are made of texts and of objects with texts for keys (`IsTextual`). What
is written for such a value is read as the value (`read?_render`), and it has no control character
(`IsTextual.printable`), so it is one line.

A character is written in one of three ways, and `Escapes` has a rule for each: behind a backslash
as one letter, behind a backslash by its number, or as it is. Reading undoes each of them
(`Escapes.readString_append`), so the induction over a text is on its characters.

The induction over a value is on `IsTextual`. It is made with anything behind the value, for the
reader has to stop where the value ends. Every nested call of the reader is behind a character of
the text, so as much fuel as there are characters is enough (`IsTextual.isReadFrom`).
-/

set_option autoImplicit false

namespace ImageBuild.Json

/-! ### Characters inside quotation marks -/

/-- How a character is written inside quotation marks. -/
inductive Escapes (c : Char) : List Char → Prop
  | letter {l : Char} : l ≠ 'u' → 32 ≤ l.toNat → simpleEscape l = some c → Escapes c ['\\', l]
  | number : c.toNat < 32 →
    Escapes c ['\\', 'u', '0', '0', hexDigit (c.toNat / 16), hexDigit (c.toNat % 16)]
  | plain : 32 ≤ c.toNat → c ≠ '"' → c ≠ '\\' → Escapes c [c]

variable {c : Char} {written : List Char}

/-- What is written for a character is read as this character. -/
theorem escapes_escape (c : Char) : Escapes c (escape c) := by
  unfold escape
  by_cases hletter : c = '"' ∨ c = '\\' ∨ c = '\x08' ∨ c = '\t' ∨ c = '\n' ∨ c = '\x0c' ∨ c = '\r'
  · rcases hletter with rfl | rfl | rfl | rfl | rfl | rfl | rfl <;>
      exact .letter (by decide) (by decide) (by decide)
  · simp only [not_or] at hletter
    obtain ⟨hquote, hslash, hb, ht, hn, hf, hr⟩ := hletter
    rw [if_neg hquote, if_neg hslash, if_neg hb, if_neg ht, if_neg hn, if_neg hf, if_neg hr]
    split
    · next hlow =>
      exact .number hlow
    · next hhigh =>
      exact .plain (by omega) hquote hslash

/-- A control character is read from the two digits that are written for it. -/
theorem hexWord_hexDigit :
    ∀ n < 32, hexWord '0' '0' (hexDigit (n / 16)) (hexDigit (n % 16)) = some n := by
  decide

/-- A digit is no control character. -/
theorem le_toNat_hexDigit : ∀ n < 16, 32 ≤ (hexDigit n).toNat := by
  decide

/-- What is written for a character is read as the character. -/
theorem Escapes.readString_append (h : Escapes c written) (collected behind : List Char) :
    readString ⟨collected, none, true⟩ (written ++ behind) =
      readString ⟨c :: collected, none, true⟩ behind := by
  cases h with
  | @letter l hu _ hl =>
    rw [List.cons_append, List.singleton_append, readString]
    · rw [hl]
      rfl
    · intro _ _ _ _ _ heq
      exact absurd heq hu
  | number hlow =>
    have hpush : Reading.pushWord ⟨collected, none, true⟩ c.toNat =
        ⟨c :: collected, none, true⟩ := by
      -- The number is below those of surrogates.
      unfold Reading.pushWord
      rw [if_neg (by omega), if_neg (by omega), Char.ofNat_toNat]
      rfl
    simp only [List.cons_append, List.nil_append, readString]
    rw [hexWord_hexDigit c.toNat hlow]
    exact congrArg (readString · behind) hpush
  | plain hhigh hquote hslash =>
    have hplain : ¬ (decide (c.toNat < 32) || decide (c = '\\')) = true := by simp [hslash, hhigh]
    rw [List.singleton_append, readString, if_neg hplain]
    · rfl
    · exact hquote
    · simp [hslash]
    · simp [hslash]

/-- A text is read from what is written for it, whatever stands behind the closing quotation
mark. -/
theorem readString_flatMap_escape (cs collected behind : List Char) :
    readString ⟨collected, none, true⟩ (cs.flatMap escape ++ '"' :: behind) =
      some (some (String.ofList (collected.reverse ++ cs)), behind) := by
  induction cs generalizing collected with
  | nil => simp [readString, Reading.finish]
  | cons c rest ih =>
    rw [List.flatMap_cons, List.append_assoc, (escapes_escape c).readString_append, ih,
      List.reverse_cons, List.append_assoc,
      List.singleton_append]

/-- What is written for a character holds no control characters. -/
theorem Escapes.printable (h : Escapes c written) : ∀ x ∈ written, 32 ≤ x.toNat := by
  cases h with
  | letter _ hl => simpa using hl
  | number hlow =>
    have hhigh := le_toNat_hexDigit (c.toNat / 16) (by omega)
    have hdigit := le_toNat_hexDigit (c.toNat % 16) (by omega)
    simpa using ⟨hhigh, hdigit⟩
  | plain hhigh => simpa using hhigh

/-- No character of a text in quotation marks is a control character. -/
theorem printable_quoteChars (s : String) : ∀ c ∈ quoteChars (some s), 32 ≤ c.toNat := by
  intro c hc
  simp only [quoteChars, List.cons_append, List.mem_cons, List.mem_append, List.mem_flatMap,
    List.not_mem_nil, or_false] at hc
  rcases hc with rfl | ⟨x, -, hc⟩ | rfl
  · decide
  · exact (escapes_escape x).printable c hc
  · decide

/-! ### Values -/

/-- The values that requests are made of: texts, and objects whose keys are texts. -/
inductive IsTextual : Json → Prop
  | text (s : String) : IsTextual (.text s)
  | record {fields : List (String × Json)} : (∀ f ∈ fields, IsTextual f.2) →
    IsTextual (.record fields)

/-- What is written for the fields of an object from one of them on, with the closing brace. -/
def fieldChars (f : String × Json) (rest : List (String × Json)) : List Char :=
  quoteChars (some f.1) ++ ':' :: chars f.2 ++ tailFields (rest.map fun f => (some f.1, f.2))

/-- The characters of a record that has fields. -/
theorem chars_record_cons (f : String × Json) (rest : List (String × Json)) :
    chars (.record (f :: rest)) = '{' :: fieldChars f rest := by
  simp [record, chars, fieldChars]

/-- Every further field has a comma before it. -/
theorem tailFields_cons (f : String × Json) (rest : List (String × Json)) :
    tailFields ((f :: rest).map fun f => (some f.1, f.2)) = ',' :: fieldChars f rest := by
  simp [tailFields, fieldChars]

/-- If no control character is written for the values of an object, then none is for the
object. -/
theorem printable_tailFields {fields : List (String × Json)}
    (h : ∀ f ∈ fields, ∀ c ∈ f.2.chars, 32 ≤ c.toNat) :
    ∀ c ∈ tailFields (fields.map fun f => (some f.1, f.2)), 32 ≤ c.toNat := by
  induction fields with
  | nil => simp [tailFields]
  | cons f rest ih =>
    intro c hc
    simp only [List.map_cons, tailFields, List.cons_append, List.append_assoc, List.mem_cons,
      List.mem_append] at hc
    rcases hc with rfl | hc | rfl | hc | hc
    · decide
    · exact printable_quoteChars f.1 c hc
    · decide
    · exact h f List.mem_cons_self c hc
    · exact ih (fun g hg => h g (List.mem_cons_of_mem _ hg)) c hc

/-- No control character is written for a value. -/
theorem IsTextual.printable {v : Json} (h : IsTextual v) : ∀ c ∈ v.chars, 32 ≤ c.toNat := by
  induction h with
  | text s => exact printable_quoteChars s
  | @record fields _ ih =>
    have htail := printable_tailFields ih
    cases fields with
    | nil =>
      show ∀ c ∈ ['{', '}'], 32 ≤ c.toNat
      simp
    | cons f rest =>
      rw [tailFields_cons, List.forall_mem_cons] at htail
      rw [chars_record_cons]
      exact List.forall_mem_cons.mpr ⟨by decide, htail.2⟩

/-! ### Reading -/

/-- A quoted text is read to its closing quotation mark, and what is behind it is left. -/
theorem readString_quoteChars (s : String) (behind : List Char) :
    ∃ inside, quoteChars (some s) ++ behind = '"' :: inside ∧
      readString ⟨[], none, true⟩ inside = some (some s, behind) := by
  refine ⟨s.toList.flatMap escape ++ '"' :: behind, by simp [quoteChars], ?_⟩
  rw [readString_flatMap_escape]
  simp

/-- A quotation mark begins a text. -/
theorem readValue_quote (fuel : Nat) (inside : List Char) :
    readValue (fuel + 1) ('"' :: inside) =
      (readString ⟨[], none, true⟩ inside).map fun read => (.str read.1, read.2) := by
  rw [readValue]
  rfl

/-- A closing brace right behind the opening one makes an empty object. -/
theorem readValue_emptyObject (fuel : Nat) (behind : List Char) :
    readValue (fuel + 1) ('{' :: '}' :: behind) = some (.obj [], behind) := by
  rw [readValue]
  rfl

/-- A quotation mark behind the opening brace begins the first field. -/
theorem readValue_object (fuel : Nat) (inside : List Char) :
    readValue (fuel + 1) ('{' :: '"' :: inside) =
      (readFields fuel ('"' :: inside)).map fun read => (.obj read.1, read.2) := by
  rw [readValue]
  rfl

section
variable {fuel : Nat} {inside more behind : List Char} {key : Option String} {v : Json}

/-- After a key and its value the object is closed. -/
theorem readFields_close (hkey : readString ⟨[], none, true⟩ inside = some (key, ':' :: more))
    (hvalue : readValue fuel more = some (v, '}' :: behind)) :
    readFields (fuel + 1) ('"' :: inside) = some ([(key, v)], behind) := by
  have hquote : skipBlanks ('"' :: inside) = '"' :: inside := rfl
  have hcolon : skipBlanks (':' :: more) = ':' :: more := rfl
  have hbrace : skipBlanks ('}' :: behind) = '}' :: behind := rfl
  simp only [readFields, hquote, hkey, hcolon, hvalue, hbrace]

/-- After a key and its value the object goes on. -/
theorem readFields_comma (hkey : readString ⟨[], none, true⟩ inside = some (key, ':' :: more))
    (hvalue : readValue fuel more = some (v, ',' :: behind)) :
    readFields (fuel + 1) ('"' :: inside) =
      (readFields fuel behind).map fun read => ((key, v) :: read.1, read.2) := by
  have hquote : skipBlanks ('"' :: inside) = '"' :: inside := rfl
  have hcolon : skipBlanks (':' :: more) = ':' :: more := rfl
  have hcomma : skipBlanks (',' :: behind) = ',' :: behind := rfl
  simp only [readFields, hquote, hkey, hcolon, hvalue, hcomma]

end

/-- The value is read from what is written for it, wherever that ends. -/
def IsReadFrom (v : Json) : Prop :=
  ∀ fuel behind, v.chars.length ≤ fuel → readValue fuel (v.chars ++ behind) = some (v, behind)

/-- A text is read from its own characters. -/
theorem isReadFrom_text (s : String) : IsReadFrom (.text s) := by
  intro fuel behind hfuel
  obtain ⟨inside, hinside, hread⟩ := readString_quoteChars s behind
  show readValue fuel (quoteChars (some s) ++ behind) = _
  cases fuel with
  | zero => simp [text, chars, quoteChars] at hfuel
  | succ fuel =>
    rw [hinside, readValue_quote, hread]
    rfl

/-- The fields of an object are read from what is written for them. -/
theorem readFields_fieldChars {f : String × Json} {rest : List (String × Json)}
    (h : ∀ g ∈ f :: rest, IsReadFrom g.2) (fuel : Nat) (behind : List Char)
    (hfuel : (fieldChars f rest).length ≤ fuel) :
    readFields fuel (fieldChars f rest ++ behind) =
      some ((f :: rest).map fun f => (some f.1, f.2), behind) := by
  -- A character of the text is in front of the value and of the fields behind it.
  induction rest generalizing f fuel with
  | nil =>
    obtain ⟨inside, hinside, hkey⟩ :=
      readString_quoteChars f.1 (':' :: f.2.chars ++ '}' :: behind)
    have htext : fieldChars f [] ++ behind = '"' :: inside := by
      rw [← hinside]
      simp [fieldChars, tailFields]
    simp only [fieldChars, List.length_append, List.length_cons] at hfuel
    cases fuel with
    | zero => omega
    | succ fuel =>
      have hvalue := h f List.mem_cons_self fuel ('}' :: behind) (by omega)
      rw [htext, readFields_close hkey hvalue]
      rfl
  | cons next more ih =>
    obtain ⟨inside, hinside, hkey⟩ :=
      readString_quoteChars f.1 (':' :: f.2.chars ++ ',' :: (fieldChars next more ++ behind))
    have htext : fieldChars f (next :: more) ++ behind = '"' :: inside := by
      rw [← hinside, fieldChars, tailFields_cons]
      simp
    rw [fieldChars, tailFields_cons, List.length_append, List.length_append, List.length_cons,
      List.length_cons] at hfuel
    cases fuel with
    | zero => omega
    | succ fuel =>
      have hvalue := h f List.mem_cons_self fuel (',' :: (fieldChars next more ++ behind))
        (by omega)
      have hmore := ih (fun g hg => h g (List.mem_cons_of_mem _ hg)) fuel (by omega)
      rw [htext, readFields_comma hkey hvalue, hmore]
      rfl

/-- A record is read from its own characters if its fields are. -/
theorem isReadFrom_record {fields : List (String × Json)} (h : ∀ f ∈ fields, IsReadFrom f.2) :
    IsReadFrom (.record fields) := by
  intro fuel behind hfuel
  cases fields with
  | nil =>
    cases fuel with
    | zero => exact absurd hfuel (by decide)
    | succ fuel => exact readValue_emptyObject fuel behind
  | cons f rest =>
    rw [chars_record_cons, List.length_cons] at hfuel
    cases fuel with
    | zero => omega
    | succ fuel =>
      have hfields := readFields_fieldChars h fuel behind (by omega)
      obtain ⟨inside, hinside⟩ : ∃ inside, fieldChars f rest ++ behind = '"' :: inside := ⟨_, rfl⟩
      rw [chars_record_cons, List.cons_append, hinside, readValue_object, ← hinside, hfields]
      rfl

/-- Texts and records of such are read from their own characters. -/
theorem IsTextual.isReadFrom {v : Json} (h : IsTextual v) : IsReadFrom v := by
  induction h with
  | text s => exact isReadFrom_text s
  | record _ ih => exact isReadFrom_record ih

/-- A value is read back from its text, also with blanks behind it. -/
theorem IsTextual.read?_render_append {v : Json} (h : IsTextual v) {blanks : String}
    (hblanks : ∀ c ∈ blanks.toList, isBlank c = true) : read? (v.render ++ blanks) = some v := by
  have hfuel : v.chars.length ≤ 2 * (v.chars ++ blanks.toList).length + 2 := by
    rw [List.length_append]
    omega
  have hskip : skipBlanks blanks.toList = [] := List.dropWhile_eq_nil_iff.mpr hblanks
  unfold read? readChars? render
  rw [String.toList_append, String.toList_ofList, h.isReadFrom _ blanks.toList hfuel]
  dsimp only
  rw [hskip]
  rfl

/-- A value is read back from its text. -/
theorem IsTextual.read?_render {v : Json} (h : IsTextual v) : read? v.render = some v := by
  have hread := @read?_render_append v h "" (by simp)
  rwa [String.append_empty] at hread

end ImageBuild.Json
