import ImageBuild.Proofs.Reference.Grammar
import ImageBuild.Reference.Basic

/-!
# `ImageBuild.Proofs.Reference.Parsing`: which references are read

`Reference.parse` first fills in the registry (`splitDomain`) and then takes the remainder apart.
`Spells` says the same from the other side: a reference of the grammar is written, domain here and
path, tag and digest there, with the seams where the grammar has them.

A remainder spells one reference at most, since no part holds the character that ends it
(`Spells.splitRemainder_eq`), so reading is the inverse of writing: `parse_eq_ok_iff`. The main
statement, `parse_iff_spelled`, adds that nothing else is read and that the parts are unique.
-/

set_option autoImplicit false

namespace ImageBuild.Reference

open Grammar

variable {domain remainder : List Char} {r s : Reference}

/-! ### References of the grammar -/

/-- All parts of a reference are as the grammar has them, and its name is not too long. -/
structure IsGrammatical (r : Reference) : Prop where
  isDomain : IsDomain r.domain.toList
  isPath : IsPath r.path.toList
  isTag : ∀ tag, r.tag = some tag → IsTag tag.toList
  isDigest : ∀ digest, r.digest = some digest → IsDigest digest.toList
  length_le : r.domain.toList.length + 1 + r.path.toList.length ≤ 255

/-- A domain and a remainder spell a reference of the grammar: the remainder is its path, then a
colon and its tag if it has one, then `@` and its digest if it has one. -/
structure Spells (domain remainder : List Char) (r : Reference) : Prop where
  grammatical : r.IsGrammatical
  domain_eq : r.domain.toList = domain
  remainder_eq : r.path.toList ++ r.suffix = remainder

/-! ### The seams of a remainder -/

/-- Tag and digest as they follow a path. -/
def suffixChars (tag digest : Option (List Char)) : List Char :=
  tag.elim [] (':' :: ·) ++ digest.elim [] ('@' :: ·)

/-- The suffix is printed from tag and digest alone. -/
theorem suffix_eq (r : Reference) :
    r.suffix = suffixChars (r.tag.map String.toList) (r.digest.map String.toList) := by
  obtain ⟨domain, path, tag, digest⟩ := r
  rcases tag with _ | tag <;> rcases digest with _ | digest <;> rfl

/-- No character of a path ends it. -/
theorem not_endsPath_of_isPath {cs : List Char} (h : IsPath cs) :
    ∀ c ∈ cs, (!endsPath c) = true := by
  intro c hc
  have hchar := h.isPathChar c hc
  rw [Bool.not_eq_true', ← Bool.not_eq_true, endsPath, Bool.or_eq_true, beq_iff_eq, beq_iff_eq]
  rintro (rfl | rfl) <;> exact absurd hchar (by decide)

/-- No tag holds the character that starts a digest. -/
theorem ne_at_of_isTag {cs : List Char} (h : IsTag cs) : ∀ c ∈ cs, (c != '@') = true := by
  have hat : '@' ∉ cs := by
    intro hc
    exact absurd (h.chars _ hc) (by decide)
  exact bne_of_notMem hat

/-- A remainder is taken apart at its seams: behind a path that nothing in it ends, and behind a
tag in which no digest starts. -/
theorem splitRemainder_append {path : List Char} {tag digest : Option (List Char)}
    (hpath : ∀ c ∈ path, (!endsPath c) = true)
    (htag : ∀ cs, tag = some cs → ∀ c ∈ cs, (c != '@') = true) :
    splitRemainder (path ++ suffixChars tag digest) = (path, tag, digest) := by
  have hends : ∀ c ∈ (suffixChars tag digest).head?, (!endsPath c) = false := by
    rcases tag with _ | tag <;> rcases digest with _ | digest <;> simp [suffixChars, endsPath]
  rw [splitRemainder, takeWhile_cut hpath hends, dropWhile_cut hpath hends]
  rcases tag with _ | tag
  · rcases digest with _ | digest <;> rfl
  · have hinside := htag tag rfl
    rcases digest with _ | digest
    · have hnone := List.dropWhile_eq_nil_iff.mpr hinside
      simp [suffixChars, hnone]
    · have hat : ∀ c ∈ ('@' :: digest).head?, (c != '@') = false := by simp
      simp [suffixChars, takeWhile_cut hinside hat, dropWhile_cut hinside hat]

/-- The path of a remainder is what stands before the first character that ends a path. -/
theorem fst_splitRemainder (cs : List Char) :
    (splitRemainder cs).1 = cs.takeWhile fun c => !endsPath c := by
  unfold splitRemainder
  dsimp only
  split
  · split <;> rfl
  · rfl
  · rfl

/-- Every remainder has such seams. -/
theorem exists_seams (cs : List Char) : ∃ path tag digest, cs = path ++ suffixChars tag digest ∧
    (∀ c ∈ path, (!endsPath c) = true) ∧ ∀ t, tag = some t → ∀ c ∈ t, (c != '@') = true := by
  obtain ⟨path, rest, rfl, hpath, hrest⟩ := exists_cut (fun c => !endsPath c) cs
  cases rest with
  | nil => exact ⟨path, none, none, rfl, hpath, by simp⟩
  | cons c more =>
    have hends : endsPath c = true := by simpa using hrest c rfl
    simp only [endsPath, Bool.or_eq_true, beq_iff_eq] at hends
    obtain rfl | rfl := hends
    · -- Behind a colon the tag reaches as far as the digest, if there is one.
      obtain ⟨tag, rest, rfl, htag, hrest⟩ := exists_cut (· != '@') more
      cases rest with
      | nil => exact ⟨path, some tag, none, by simp [suffixChars], hpath, by simpa using htag⟩
      | cons d digest =>
        obtain rfl : d = '@' := by simpa using hrest d rfl
        exact ⟨path, some tag, some digest, by simp [suffixChars], hpath, by simpa using htag⟩
    · exact ⟨path, none, some more, by simp [suffixChars], hpath, by simp⟩

/-- A remainder is taken apart into path, tag and digest of the reference that it spells. -/
theorem Spells.splitRemainder_eq (h : Spells domain remainder r) :
    splitRemainder remainder =
      (r.path.toList, r.tag.map String.toList, r.digest.map String.toList) := by
  rw [← h.remainder_eq, suffix_eq]
  refine splitRemainder_append (not_endsPath_of_isPath h.grammatical.isPath) fun cs hcs => ?_
  obtain ⟨tag, htag, rfl⟩ := Option.map_eq_some_iff.mp hcs
  exact ne_at_of_isTag (h.grammatical.isTag tag htag)

/-- A domain and a remainder spell one reference at most. -/
theorem Spells.unique (h : Spells domain remainder r) (h' : Spells domain remainder s) :
    r = s := by
  have hparts := h.splitRemainder_eq.symm.trans h'.splitRemainder_eq
  simp only [Prod.mk.injEq] at hparts
  obtain ⟨hpath, htag, hdigest⟩ := hparts
  have htext : ∀ a b : String, a.toList = b.toList → a = b := fun _ _ => String.toList_injective
  have hdomain := h.domain_eq.trans h'.domain_eq.symm
  obtain ⟨domain, path, tag, digest⟩ := r
  obtain ⟨domain', path', tag', digest'⟩ := s
  rw [mk.injEq]
  exact ⟨htext _ _ hdomain, htext _ _ hpath, Option.map_injective htext htag,
    Option.map_injective htext hdigest⟩

/-! ### Reading -/

/-- What is checked of the parts of a remainder is what the grammar asks for. -/
theorem validRemainder_iff {path : List Char} {tag digest : Option (List Char)} :
    validRemainder (path, tag, digest) = true ↔ IsPath path ∧ (∀ t, tag = some t → IsTag t) ∧
      ∀ d, digest = some d → IsDigest d := by
  simp only [validRemainder, Bool.and_eq_true, isPath_iff, and_assoc]
  rcases tag with _ | tag <;> rcases digest with _ | digest <;>
    simp [isTag_iff, isDigest_iff]

/-- No path has an upper-case letter, so refusing these first refuses nothing else. -/
theorem any_isUpper_of_isPath {cs : List Char} (h : IsPath cs) : cs.any isUpper = false := by
  rw [List.any_eq_false]
  intro c hc hupper
  have hchar := h.isPathChar c hc
  simp only [isUpper, Bool.and_eq_true, decide_eq_true_eq] at hupper
  simp only [isLowerAlnum, isLower, isDigit, isJoiner, Bool.or_eq_true, Bool.and_eq_true,
    decide_eq_true_eq, beq_iff_eq] at hchar
  -- The ranges of these characters lie on both sides of the upper-case letters.
  obtain ((hlower | hdigit) | (rfl | rfl) | rfl) | rfl := hchar
  · exact absurd (Char.le_trans hlower.1 hupper.2) (by decide)
  · exact absurd (Char.le_trans hupper.1 hdigit.2) (by decide)
  all_goals exact absurd hupper (by decide)

/-- The reference with these parts. -/
def ofParts (domain path : List Char) (tag digest : Option (List Char)) : Reference :=
  ⟨.ofList domain, .ofList path, tag.map .ofList, digest.map .ofList⟩

/-- A reference is made of the texts of its parts. -/
theorem ofParts_toList (r : Reference) : ofParts r.domain.toList r.path.toList
    (r.tag.map String.toList) (r.digest.map String.toList) = r := by
  obtain ⟨domain, path, tag, digest⟩ := r
  rcases tag with _ | tag <;> rcases digest with _ | digest <;> simp [ofParts]

/-- Parts make up a spelling when each is well formed and the name is not too long. -/
theorem spells_ofParts_iff {domain path : List Char} {tag digest : Option (List Char)} :
    Spells domain (path ++ suffixChars tag digest) (ofParts domain path tag digest) ↔
      IsDomain domain ∧ (IsPath path ∧ (∀ t, tag = some t → IsTag t) ∧
        ∀ d, digest = some d → IsDigest d) ∧ domain.length + 1 + path.length ≤ 255 := by
  constructor
  · rintro ⟨⟨hdomain, hpath, htag, hdigest, hlength⟩, -, -⟩
    simp only [ofParts, String.toList_ofList] at hdomain hpath hlength
    refine ⟨hdomain, ⟨hpath, ?_, ?_⟩, hlength⟩
    · rintro t rfl
      simpa using htag _ rfl
    · rintro d rfl
      simpa using hdigest _ rfl
  · rintro ⟨hdomain, ⟨hpath, htag, hdigest⟩, hlength⟩
    refine ⟨⟨by simpa [ofParts], by simpa [ofParts], ?_, ?_, by simpa [ofParts]⟩, by
      simp [ofParts], ?_⟩
    · intro t ht
      obtain ⟨cs, hcs, rfl⟩ := Option.map_eq_some_iff.mp ht
      simpa using htag cs hcs
    · intro d hd
      obtain ⟨cs, hcs, rfl⟩ := Option.map_eq_some_iff.mp hd
      simpa using hdigest cs hcs
    · rcases tag with _ | tag <;> rcases digest with _ | digest <;>
        simp [ofParts, suffix, suffixChars]

/-- A text is read as the reference that its domain and its remainder spell, unless it is an image
id. -/
theorem parse_eq_ok_iff {value : String} :
    parse value = .ok r ↔ ¬ IsIdentifier value.toList ∧
      Spells (splitDomain value.toList).1 (splitDomain value.toList).2 r := by
  unfold parse
  dsimp only
  generalize splitDomain value.toList = split
  obtain ⟨domain, remainder⟩ := split
  dsimp only
  rw [← isIdentifier_iff]
  constructor
  · -- The remainder is taken for its pieces, so that each check is one of a piece.
    intro h
    obtain ⟨path, tag, digest, rfl, hpath, htag⟩ := exists_seams remainder
    rw [splitRemainder_append hpath htag] at h
    split_ifs at h with hid hupper hdomain hparts hlength
    cases h
    refine ⟨hid, spells_ofParts_iff.mpr ⟨?_, ?_, Nat.le_of_not_lt hlength⟩⟩
    · simpa [isDomain_iff] using hdomain
    · exact validRemainder_iff.mp (by simpa using hparts)
  · -- None of the five checks stops a reference that is spelled.
    rintro ⟨hid, h⟩
    obtain ⟨⟨hdomain, hpath, htag, hdigest, hlength⟩, rfl, -⟩ := id h
    have hvalid : validRemainder (splitRemainder remainder) = true := by
      rw [h.splitRemainder_eq, validRemainder_iff]
      simpa [hpath] using And.intro htag hdigest
    have hlower : (remainder.takeWhile fun c => !endsPath c).any isUpper = false := by
      rw [← fst_splitRemainder, h.splitRemainder_eq]
      exact any_isUpper_of_isPath hpath
    have hshort : ¬ nameLimit < r.domain.toList.length + 1 +
        (splitRemainder remainder).1.length := by
      rw [h.splitRemainder_eq]
      exact Nat.not_lt_of_le hlength
    rw [if_neg hid, if_neg (by simp [hlower]), if_neg (by simp [isDomain_iff.mpr hdomain]),
      if_neg (by simp [hvalid]), if_neg hshort, h.splitRemainder_eq]
    exact congrArg Except.ok (ofParts_toList r)

/-- Exactly the references of the grammar are read. A text that is no image id is read if and only
if its domain and its remainder, with the default registry filled in, spell a reference of the
grammar; they spell one at most, and that is what is read. -/
theorem parse_iff_spelled (value : String) :
    ((∃ r, parse value = .ok r) ↔ ¬ IsIdentifier value.toList ∧
      ∃ r, Spells (splitDomain value.toList).1 (splitDomain value.toList).2 r) ∧
    (∀ r, parse value = .ok r →
      Spells (splitDomain value.toList).1 (splitDomain value.toList).2 r) ∧
    ∀ r s, Spells (splitDomain value.toList).1 (splitDomain value.toList).2 r →
      Spells (splitDomain value.toList).1 (splitDomain value.toList).2 s → r = s := by
  refine ⟨?_, fun r h => (parse_eq_ok_iff.mp h).2, fun r s h h' => h.unique h'⟩
  constructor
  · rintro ⟨r, h⟩
    obtain ⟨hid, hspells⟩ := parse_eq_ok_iff.mp h
    exact ⟨hid, r, hspells⟩
  · rintro ⟨hid, r, hspells⟩
    exact ⟨r, parse_eq_ok_iff.mpr ⟨hid, hspells⟩⟩

/-- A success can be told from the value in it. -/
theorem eq_ok_of_toOption {ε α : Type} {x : Except ε α} {a : α} (h : x.toOption = some a) :
    x = .ok a := by
  cases x with
  | error _ => cases h
  | ok b => exact congrArg Except.ok (Option.some.inj h)

/-- The port of a registry and a tag both follow a colon, and two underscores are one
separator. -/
theorem parse_spelled_port : Spells (splitDomain "localhost:5000/my__app:1.2".toList).1
    (splitDomain "localhost:5000/my__app:1.2".toList).2
    ⟨"localhost:5000", "my__app", some "1.2", none⟩ :=
  (parse_iff_spelled "localhost:5000/my__app:1.2").2.1 ⟨"localhost:5000", "my__app",
    some "1.2", none⟩
    (eq_ok_of_toOption (by decide +kernel))

end ImageBuild.Reference
