import ImageBuild.Proofs.Text.JsonNumber
import ImageBuild.Proofs.Text.JsonString

/-!
# `ImageBuild.Proofs.Text.JsonReading`: the values that are read are those of the grammar

`read?_eq_some_iff` is that a text is read as a value exactly if the grammar says that it is one.

Both directions follow the reader. What is read has a derivation by induction on the fuel
(`sound`). A derivation is read back by induction on itself (`Spells.readsBack`), with anything
behind it that cannot be more of a number, and with twice as much fuel as it has characters: a
value in brackets is two calls below the value that it is in.
-/

set_option autoImplicit false

namespace ImageBuild.Json

/-! ### What is read is in the grammar -/

/-- What is read with so much fuel has a derivation: a value behind blanks, items up to the
closing bracket, and fields up to the closing brace. -/
structure Sound (fuel : Nat) : Prop where
  value : ∀ cs behind v, readValue fuel cs = some (v, behind) →
    ∃ blanks body, cs = blanks ++ body ++ behind ∧ Blanks blanks ∧ Spells body (.value v)
  items : ∀ cs behind vs, readItems fuel cs = some (vs, behind) →
    ∃ body, cs = body ++ ']' :: behind ∧ Spells body (.items vs)
  fields : ∀ cs behind fs, readFields fuel cs = some (fs, behind) →
    ∃ body, cs = body ++ '}' :: behind ∧ Spells body (.fields fs)

/-- A character behind blanks. -/
theorem exists_blanks_cons {cs rest : List Char} {c : Char} (h : skipBlanks cs = c :: rest) :
    ∃ blanks, Blanks blanks ∧ cs = blanks ++ c :: rest := by
  obtain ⟨blanks, hblanks, hcs⟩ := exists_blanks cs
  exact ⟨blanks, hblanks, h ▸ hcs⟩

/-- A value that is read is spelled by what was read of it. -/
theorem Sound.readValue {fuel : Nat} (h : Sound fuel) {cs behind : List Char} {v : Json}
    (hread : readValue (fuel + 1) cs = some (v, behind)) :
    ∃ body, skipBlanks cs = body ++ behind ∧ Spells body (.value v) := by
  rw [Json.readValue] at hread
  -- The first character that is not blank tells what kind of value it can be.
  split at hread
  next rest heq =>
    obtain ⟨rfl, rfl⟩ := Prod.mk.inj (Option.some.inj hread)
    exact ⟨_, heq, .nullWord⟩
  next rest heq =>
    obtain ⟨rfl, rfl⟩ := Prod.mk.inj (Option.some.inj hread)
    exact ⟨_, heq, .trueWord⟩
  next rest heq =>
    obtain ⟨rfl, rfl⟩ := Prod.mk.inj (Option.some.inj hread)
    exact ⟨_, heq, .falseWord⟩
  next rest heq =>
    obtain ⟨⟨s, after⟩, hs, hpair⟩ := Option.map_eq_some_iff.mp hread
    obtain ⟨rfl, rfl⟩ := Prod.mk.inj hpair
    obtain ⟨key, hkey, hquoted⟩ := exists_quoted hs
    exact ⟨key, heq.trans hkey, .string hquoted⟩
  next rest heq =>
    split at hread
    next after hclose =>
      obtain ⟨rfl, rfl⟩ := Prod.mk.inj (Option.some.inj hread)
      obtain ⟨blanks, hblanks, rfl⟩ := exists_blanks_cons hclose
      exact ⟨_, by rw [heq]; simp, .emptyArray hblanks⟩
    next =>
      obtain ⟨⟨vs, after⟩, hvs, hpair⟩ := Option.map_eq_some_iff.mp hread
      obtain ⟨rfl, rfl⟩ := Prod.mk.inj hpair
      obtain ⟨body, rfl, hspells⟩ := h.items _ _ _ hvs
      exact ⟨_, by rw [heq]; simp, .array hspells⟩
  next rest heq =>
    split at hread
    next after hclose =>
      obtain ⟨rfl, rfl⟩ := Prod.mk.inj (Option.some.inj hread)
      obtain ⟨blanks, hblanks, rfl⟩ := exists_blanks_cons hclose
      exact ⟨_, by rw [heq]; simp, .emptyObject hblanks⟩
    next =>
      obtain ⟨⟨fs, after⟩, hfs, hpair⟩ := Option.map_eq_some_iff.mp hread
      obtain ⟨rfl, rfl⟩ := Prod.mk.inj hpair
      obtain ⟨body, rfl, hspells⟩ := h.fields _ _ _ hfs
      exact ⟨_, by rw [heq]; simp, .object hspells⟩
  next =>
    obtain ⟨body, hbody, hnumber⟩ := number_of_readNumber hread
    exact ⟨body, hbody, .number hnumber⟩

/-- So are the elements of an array. -/
theorem Sound.readItems {fuel : Nat} (h : Sound fuel) {cs behind : List Char} {vs : List Json}
    (hread : readItems (fuel + 1) cs = some (vs, behind)) :
    ∃ body, cs = body ++ ']' :: behind ∧ Spells body (.items vs) := by
  rw [Json.readItems] at hread
  split at hread
  next => cases hread
  next v rest hvalue =>
    obtain ⟨a, body, rfl, ha, hspells⟩ := h.value _ _ _ hvalue
    split at hread
    next after hclose =>
      obtain ⟨rfl, rfl⟩ := Prod.mk.inj (Option.some.inj hread)
      obtain ⟨b, hb, rfl⟩ := exists_blanks_cons hclose
      exact ⟨_, by simp, .lastItem ha hspells hb⟩
    next more hcomma =>
      obtain ⟨⟨vs, after⟩, hvs, hpair⟩ := Option.map_eq_some_iff.mp hread
      obtain ⟨rfl, rfl⟩ := Prod.mk.inj hpair
      obtain ⟨b, hb, rfl⟩ := exists_blanks_cons hcomma
      obtain ⟨items, rfl, hitems⟩ := h.items _ _ _ hvs
      exact ⟨_, by simp, .item ha hspells hb hitems⟩
    next => cases hread

/-- So are the fields of an object. -/
theorem Sound.readFields {fuel : Nat} (h : Sound fuel) {cs behind : List Char}
    {fs : List (Option String × Json)} (hread : readFields (fuel + 1) cs = some (fs, behind)) :
    ∃ body, cs = body ++ '}' :: behind ∧ Spells body (.fields fs) := by
  rw [Json.readFields] at hread
  -- A field is a quoted key, a colon and a value, with a comma or the end behind it.
  split at hread
  next inside hquote =>
    obtain ⟨a, ha, rfl⟩ := exists_blanks_cons hquote
    split at hread
    next => cases hread
    next k afterKey hkey =>
      obtain ⟨key, hkey, hquoted⟩ := exists_quoted hkey
      split at hread
      next text hcolon =>
        obtain ⟨b, hb, rfl⟩ := exists_blanks_cons hcolon
        split at hread
        next => cases hread
        next v afterValue hvalue =>
          obtain ⟨c, body, rfl, hc, hspells⟩ := h.value _ _ _ hvalue
          rw [hkey]
          split at hread
          next after hclose =>
            obtain ⟨rfl, rfl⟩ := Prod.mk.inj (Option.some.inj hread)
            obtain ⟨d, hd, rfl⟩ := exists_blanks_cons hclose
            exact ⟨_, by simp, .lastField ha hquoted hb hc hspells hd⟩
          next more hcomma =>
            obtain ⟨⟨fs, after⟩, hfs, hpair⟩ := Option.map_eq_some_iff.mp hread
            obtain ⟨rfl, rfl⟩ := Prod.mk.inj hpair
            obtain ⟨d, hd, rfl⟩ := exists_blanks_cons hcomma
            obtain ⟨fields, rfl, hfields⟩ := h.fields _ _ _ hfs
            exact ⟨_, by simp, .field ha hquoted hb hc hspells hd hfields⟩
          next => cases hread
      next => cases hread
  next => cases hread

/-- What is read is spelled, whatever the fuel. -/
theorem sound (fuel : Nat) : Sound fuel := by
  induction fuel with
  | zero =>
    refine ⟨fun _ _ _ h => ?_, fun _ _ _ h => ?_, fun _ _ _ h => ?_⟩
    · rw [Json.readValue] at h
      cases h
    · rw [Json.readItems] at h
      cases h
    · rw [Json.readFields] at h
      cases h
  | succ fuel ih =>
    refine ⟨fun cs behind v h => ?_, fun _ _ _ h => ih.readItems h,
      fun _ _ _ h => ih.readFields h⟩
    obtain ⟨blanks, hblanks, hcs⟩ := exists_blanks cs
    obtain ⟨body, hbody, hspells⟩ := ih.readValue h
    exact ⟨blanks, body, by rw [List.append_assoc, ← hbody, ← hcs], hblanks, hspells⟩

/-! ### What is in the grammar is read -/

/-- A number starts with a digit or its sign. -/
theorem Number.head {cs : List Char} {v : Json} (h : Number cs v) :
    ∃ c rest, cs = c :: rest ∧ (c = '-' ∨ '0' ≤ c ∧ c ≤ '9') := by
  obtain ⟨sign, ds, fraction, exponent, rfl, hsign, hds, -⟩ := h.exists_parts
  rcases hsign with rfl | rfl
  · obtain ⟨d, rest, rfl⟩ := List.exists_cons_of_ne_nil hds.1.1
    exact ⟨d, _, rfl, .inr (hds.1.2 d List.mem_cons_self)⟩
  · exact ⟨'-', _, rfl, .inl rfl⟩

/-- No character that ends or separates values is the first of a number, and no blank is. -/
theorem Number.head_ne {cs behind rest : List Char} {v : Json} {c : Char} (h : Number cs v)
    (heq : cs ++ behind = c :: rest) :
    c ∉ ['n', 't', 'f', '"', '[', '{', ']', ' ', '\n', '\t', '\r'] := by
  obtain ⟨first, more, rfl, hfirst⟩ := h.head
  obtain rfl := (List.cons.inj heq).1
  intro hmem
  rcases hfirst with rfl | hdigit
  · revert hmem
    decide
  · simp only [List.mem_cons, List.not_mem_nil, or_false] at hmem
    rcases hmem with rfl | rfl | rfl | rfl | rfl | rfl | rfl | rfl | rfl | rfl | rfl <;>
      exact absurd hdigit (by decide)

/-- No other character is blank. -/
theorem isBlank_eq_false {c : Char} (h : c ∉ [' ', '\n', '\t', '\r']) : isBlank c = false := by
  rw [Bool.eq_false_iff]
  intro hblank
  exact h (by simpa using (isBlank_iff c).mp hblank)

/-- A value starts with a character that is neither a blank nor a closing bracket. -/
theorem Spells.head {cs : List Char} {v : Json} (h : Spells cs (.value v)) :
    ∃ c rest, cs = c :: rest ∧ isBlank c = false ∧ c ≠ ']' := by
  cases h with
  | nullWord | trueWord | falseWord | emptyArray | array | emptyObject | object =>
    exact ⟨_, _, rfl, by decide, by decide⟩
  | number hnumber =>
    obtain ⟨c, rest, rfl, -⟩ := hnumber.head
    have hne := hnumber.head_ne (List.append_nil _)
    simp only [List.mem_cons, List.not_mem_nil, or_false, not_or] at hne
    refine ⟨c, rest, rfl, isBlank_eq_false ?_, hne.2.2.2.2.2.2.1⟩
    simpa using hne.2.2.2.2.2.2.2
  | string hquoted =>
    cases hquoted with
    | text | unpaired => exact ⟨_, _, rfl, by decide, by decide⟩

/-- Blanks in front of a value are taken off, and no more. -/
theorem Spells.skipBlanks_append {cs blanks : List Char} {v : Json} (h : Spells cs (.value v))
    (hblanks : Blanks blanks) (behind : List Char) :
    skipBlanks (blanks ++ (cs ++ behind)) = cs ++ behind := by
  obtain ⟨c, rest, rfl, hc, -⟩ := h.head
  rw [Json.skipBlanks_append hblanks, List.cons_append, skipBlanks_cons hc]

/-- The first item of an array is no closing bracket. -/
theorem Spells.skipBlanks_items {cs : List Char} {vs : List Json} (h : Spells cs (.items vs))
    (behind : List Char) : ∃ c rest, skipBlanks (cs ++ behind) = c :: rest ∧ c ≠ ']' := by
  cases h with
  | lastItem ha hvalue hb | item ha hvalue hb =>
    obtain ⟨c, rest, hcs, hc, hne⟩ := hvalue.head
    simp only [List.append_assoc]
    rw [hvalue.skipBlanks_append ha, hcs]
    exact ⟨c, _, rfl, hne⟩

/-- The first key of an object starts with a quotation mark. -/
theorem Spells.skipBlanks_fields {cs : List Char} {fs : List (Option String × Json)}
    (h : Spells cs (.fields fs)) (behind : List Char) :
    ∃ rest, skipBlanks (cs ++ behind) = '"' :: rest := by
  cases h with
  | lastField ha hkey | field ha hkey =>
    simp only [List.append_assoc]
    rw [Json.skipBlanks_append ha]
    obtain ⟨inside, hinside, -⟩ := hkey.readString_append _
    rw [hinside]
    exact ⟨inside, rfl⟩

/-- Blanks end a number. -/
theorem stops_append {blanks cs : List Char} (hblanks : Blanks blanks) (hcs : Stops cs) :
    Stops (blanks ++ cs) := by
  cases blanks with
  | nil => exact hcs
  | cons c rest =>
    rintro _ ⟨⟩
    rcases hblanks c List.mem_cons_self with rfl | rfl | rfl | rfl <;> decide

/-- So do a comma and the closing of an array or an object. -/
theorem stops_cons {c : Char} (hc : c ∈ [',', ']', '}']) (rest : List Char) :
    Stops (c :: rest) := by
  rintro _ ⟨⟩
  simp only [List.mem_cons, List.not_mem_nil, or_false] at hc
  rcases hc with rfl | rfl | rfl <;> decide

/-- The part is read from its text, with anything behind it where it stops. -/
def ReadsBack (cs : List Char) : Part → Prop
  | .value v => ∀ fuel blanks behind, 2 * cs.length ≤ fuel → Blanks blanks → Stops behind →
    readValue fuel (blanks ++ (cs ++ behind)) = some (v, behind)
  | .items vs => ∀ fuel behind, 2 * cs.length < fuel →
    readItems fuel (cs ++ ']' :: behind) = some (vs, behind)
  | .fields fs => ∀ fuel behind, 2 * cs.length < fuel →
    readFields fuel (cs ++ '}' :: behind) = some (fs, behind)

/-- To read a value back, the blanks in front of it can be left out. -/
theorem readsBack_value {cs : List Char} {v : Json} (h : Spells cs (.value v))
    (hread : ∀ fuel behind text, 2 * cs.length ≤ fuel + 1 → Stops behind →
      skipBlanks text = cs ++ behind → readValue (fuel + 1) text = some (v, behind)) :
    ReadsBack cs (.value v) := by
  intro fuel blanks behind hfuel hblanks hbehind
  obtain ⟨c, rest, hcs, -⟩ := h.head
  cases fuel with
  | zero =>
    rw [hcs, List.length_cons] at hfuel
    omega
  | succ fuel => exact hread fuel behind _ hfuel hbehind (h.skipBlanks_append hblanks behind)

/-- A number is read back. -/
theorem readsBack_number {cs : List Char} {v : Json} (h : Number cs v) :
    ReadsBack cs (.value v) := by
  refine readsBack_value (.number h) fun fuel behind text _ hbehind htext => ?_
  rw [readValue, htext]
  split
  next heq => exact absurd (h.head_ne heq) (by decide)
  next heq => exact absurd (h.head_ne heq) (by decide)
  next heq => exact absurd (h.head_ne heq) (by decide)
  next heq => exact absurd (h.head_ne heq) (by decide)
  next heq => exact absurd (h.head_ne heq) (by decide)
  next heq => exact absurd (h.head_ne heq) (by decide)
  next => exact h.readNumber_append hbehind

/-- A text is read back. -/
theorem readsBack_string {cs : List Char} {s : Option String} (h : Quoted cs s) :
    ReadsBack cs (.value (.str s)) := by
  refine readsBack_value (.string h) fun fuel behind text _ _ htext => ?_
  obtain ⟨inside, hinside, hread⟩ := h.readString_append behind
  simp only [readValue, htext, hinside]
  rw [show readString ⟨[], none, Bool.true⟩ inside = _ from hread]
  rfl

/-- An array is read back if its elements are. -/
theorem readsBack_array {cs : List Char} {vs : List Json} (h : Spells cs (.items vs))
    (hcs : ReadsBack cs (.items vs)) : ReadsBack ('[' :: cs ++ [']']) (.value (.arr vs)) := by
  refine readsBack_value (.array h) fun fuel behind text hfuel _ htext => ?_
  obtain ⟨c, rest, hskip, hne⟩ := h.skipBlanks_items (']' :: behind)
  have hread := hcs fuel behind (by simp at hfuel; omega)
  rw [List.append_assoc, List.singleton_append, List.cons_append] at htext
  simp only [readValue, htext, hskip, hread]
  split
  next heq => exact absurd (List.cons.inj heq).1 hne
  next => rfl

/-- An object is read back if its fields are. -/
theorem readsBack_object {cs : List Char} {fs : List (Option String × Json)}
    (h : Spells cs (.fields fs)) (hcs : ReadsBack cs (.fields fs)) :
    ReadsBack ('{' :: cs ++ ['}']) (.value (.obj fs)) := by
  refine readsBack_value (.object h) fun fuel behind text hfuel _ htext => ?_
  obtain ⟨rest, hskip⟩ := h.skipBlanks_fields ('}' :: behind)
  have hread := hcs fuel behind (by simp at hfuel; omega)
  rw [List.append_assoc, List.singleton_append, List.cons_append] at htext
  simp only [readValue, htext, hskip, hread]
  rfl

/-- A value between blanks is read up to what ends it. -/
theorem readValue_between {a cs b rest : List Char} {v : Json} (fuel : Nat)
    (hcs : ReadsBack cs (.value v)) (ha : Blanks a) (hb : Blanks b) (hrest : Stops rest)
    (hfuel : 2 * cs.length ≤ fuel) :
    readValue fuel (a ++ cs ++ b ++ rest) = some (v, b ++ rest) := by
  have hread := hcs fuel a (b ++ rest) hfuel ha (stops_append hb hrest)
  simpa only [List.append_assoc] using hread

/-- Blanks before a punctuation mark are skipped up to it. -/
theorem skipBlanks_append_cons {b rest : List Char} {c : Char} (hb : Blanks b)
    (hc : c ∈ [',', ']', '}', ':']) : skipBlanks (b ++ c :: rest) = c :: rest := by
  rw [skipBlanks_append hb]
  simp only [List.mem_cons, List.not_mem_nil, or_false] at hc
  rcases hc with rfl | rfl | rfl | rfl <;> rfl

/-- A key is read up to its value, and the value up to what is behind it. -/
theorem readFields_key {a key b c cs d rest : List Char} {k : Option String} {v : Json}
    (fuel : Nat) (hkey : Quoted key k) (hcs : ReadsBack cs (.value v)) (ha : Blanks a)
    (hb : Blanks b) (hc : Blanks c) (hd : Blanks d) (hrest : Stops rest)
    (hfuel : 2 * cs.length ≤ fuel) :
    readFields (fuel + 1) (a ++ key ++ b ++ ':' :: (c ++ cs ++ d ++ rest)) =
      match skipBlanks (d ++ rest) with
      | '}' :: after => some ([(k, v)], after)
      | ',' :: more => (readFields fuel more).map fun (fields, after) => ((k, v) :: fields, after)
      | _ => none := by
  obtain ⟨inside, hinside, hread⟩ :=
    hkey.readString_append (b ++ ':' :: (c ++ cs ++ d ++ rest))
  have hstart : readString ⟨[], none, true⟩ inside =
      some (k, b ++ ':' :: (c ++ cs ++ d ++ rest)) :=
    hread
  have htext : skipBlanks (a ++ key ++ b ++ ':' :: (c ++ cs ++ d ++ rest)) = '"' :: inside := by
    simp only [List.append_assoc] at hinside ⊢
    rw [skipBlanks_append ha, hinside]
    rfl
  have hcolon : skipBlanks (b ++ ':' :: (c ++ cs ++ d ++ rest)) = ':' :: (c ++ cs ++ d ++ rest) :=
    skipBlanks_append_cons hb (by decide)
  have hvalue := readValue_between fuel hcs hc hd hrest hfuel
  simp only [readFields, htext, hstart, hcolon]
  exact hvalue ▸ rfl

/-! Every element and every field takes one of the fuel, and is no shorter than that. -/

/-- The last element of an array is read back. -/
theorem readsBack_lastItem {a cs b : List Char} {v : Json} (hcs : ReadsBack cs (.value v))
    (ha : Blanks a) (hb : Blanks b) : ReadsBack (a ++ cs ++ b) (.items [v]) := by
  intro fuel behind hfuel
  simp only [List.length_append] at hfuel
  cases fuel with
  | zero => omega
  | succ fuel =>
    have hvalue := readValue_between fuel hcs ha hb (stops_cons (c := ']') (by decide) behind)
      (by omega)
    simp only [readItems, hvalue, skipBlanks_append_cons hb (c := ']') (by decide)]

/-- An element of an array is read back, if those behind it are. -/
theorem readsBack_item {a cs b more : List Char} {v : Json} {vs : List Json}
    (hcs : ReadsBack cs (.value v)) (hmore : ReadsBack more (.items vs)) (ha : Blanks a)
    (hb : Blanks b) : ReadsBack (a ++ cs ++ b ++ ',' :: more) (.items (v :: vs)) := by
  intro fuel behind hfuel
  simp only [List.length_append, List.length_cons] at hfuel
  cases fuel with
  | zero => omega
  | succ fuel =>
    have hvalue := readValue_between fuel hcs ha hb
      (stops_cons (c := ',') (by decide) (more ++ ']' :: behind)) (by omega)
    have hrest := hmore fuel behind (by omega)
    rw [List.append_assoc, List.cons_append]
    simp only [readItems, hvalue, skipBlanks_append_cons hb (c := ',') (by decide)]
    exact hrest ▸ rfl

/-- The last field of an object is read back. -/
theorem readsBack_lastField {a key b c cs d : List Char} {k : Option String} {v : Json}
    (hkey : Quoted key k) (hcs : ReadsBack cs (.value v)) (ha : Blanks a) (hb : Blanks b)
    (hc : Blanks c) (hd : Blanks d) :
    ReadsBack (a ++ key ++ b ++ ':' :: (c ++ cs ++ d)) (.fields [(k, v)]) := by
  intro fuel behind hfuel
  simp only [List.length_append, List.length_cons] at hfuel
  cases fuel with
  | zero => omega
  | succ fuel =>
    have hread := readFields_key fuel hkey hcs ha hb hc hd
      (stops_cons (c := '}') (by decide) behind) (by omega)
    rw [skipBlanks_append_cons hd (c := '}') (by decide)] at hread
    rw [List.append_assoc, List.cons_append]
    exact hread

/-- A field of an object is read back, if those behind it are. -/
theorem readsBack_field {a key b c cs d more : List Char} {k : Option String} {v : Json}
    {fs : List (Option String × Json)} (hkey : Quoted key k) (hcs : ReadsBack cs (.value v))
    (hmore : ReadsBack more (.fields fs)) (ha : Blanks a) (hb : Blanks b) (hc : Blanks c)
    (hd : Blanks d) :
    ReadsBack (a ++ key ++ b ++ ':' :: (c ++ cs ++ d ++ ',' :: more))
      (.fields ((k, v) :: fs)) := by
  intro fuel behind hfuel
  simp only [List.length_append, List.length_cons] at hfuel
  cases fuel with
  | zero => omega
  | succ fuel =>
    have hread := readFields_key fuel hkey hcs ha hb hc hd
      (stops_cons (c := ',') (by decide) (more ++ '}' :: behind)) (by omega)
    have hrest := hmore fuel behind (by omega)
    rw [skipBlanks_append_cons hd (c := ',') (by decide)] at hread
    simp only [hrest] at hread
    simp only [List.append_assoc, List.cons_append] at hread ⊢
    exact hread

/-- A part of the grammar is read back. -/
theorem Spells.readsBack {cs : List Char} {p : Part} (h : Spells cs p) : ReadsBack cs p := by
  induction h with
  | nullWord =>
    refine readsBack_value .nullWord fun fuel behind text _ _ htext => ?_
    rw [readValue, htext]
    rfl
  | trueWord =>
    refine readsBack_value .trueWord fun fuel behind text _ _ htext => ?_
    rw [readValue, htext]
    rfl
  | falseWord =>
    refine readsBack_value .falseWord fun fuel behind text _ _ htext => ?_
    rw [readValue, htext]
    rfl
  | number hnumber => exact readsBack_number hnumber
  | string hquoted => exact readsBack_string hquoted
  | @emptyArray blanks hblanks =>
    refine readsBack_value (.emptyArray hblanks) fun fuel behind text _ _ htext => ?_
    rw [List.append_assoc, List.singleton_append, List.cons_append] at htext
    simp only [readValue, htext, skipBlanks_append_cons hblanks (c := ']') (by decide)]
  | array hitems ih => exact readsBack_array hitems ih
  | @emptyObject blanks hblanks =>
    refine readsBack_value (.emptyObject hblanks) fun fuel behind text _ _ htext => ?_
    rw [List.append_assoc, List.singleton_append, List.cons_append] at htext
    simp only [readValue, htext, skipBlanks_append_cons hblanks (c := '}') (by decide)]
  | object hfields ih => exact readsBack_object hfields ih
  | lastItem ha _ hb ih => exact readsBack_lastItem ih ha hb
  | item ha _ hb _ ih ihMore => exact readsBack_item ih ihMore ha hb
  | lastField ha hkey hb hc _ hd ih => exact readsBack_lastField hkey ih ha hb hc hd
  | field ha hkey hb hc _ hd _ ih ihMore => exact readsBack_field hkey ih ihMore ha hb hc hd

/-! ### Whole texts -/

/-- A text is read as a value exactly if the grammar says that it is one. -/
theorem read?_eq_some_iff (s : String) (v : Json) : read? s = some v ↔ Denotes s v := by
  unfold read? readChars?
  constructor
  · intro h
    split at h
    next v' behind hread =>
      split_ifs at h with hbehind
      obtain rfl := Option.some.inj h
      obtain ⟨before, cs, hs, hbefore, hcs⟩ := (sound _).value _ _ _ hread
      have hblanks : Blanks behind :=
        (skipBlanks_eq_nil_iff behind).mp (List.isEmpty_iff.mp hbehind)
      exact ⟨before, cs, behind, hs, hbefore, hcs, hblanks⟩
    next => cases h
  · rintro ⟨before, cs, behind, hs, hbefore, hcs, hbehind⟩
    have hstops : Stops behind := by
      have hnil : Stops [] := by simp [Stops]
      have happend := stops_append hbehind hnil
      rwa [List.append_nil] at happend
    -- The fuel is as much as the longest text of this length can take.
    have hread := hcs.readsBack (2 * s.toList.length + 2) before behind
      (by rw [hs]; simp only [List.length_append]; omega) hbefore hstops
    rw [← List.append_assoc, ← hs] at hread
    rw [hread]
    simp [(skipBlanks_eq_nil_iff behind).mpr hbehind]

end ImageBuild.Json
