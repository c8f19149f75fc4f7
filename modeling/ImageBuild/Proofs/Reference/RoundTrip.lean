import ImageBuild.Proofs.Reference.Parsing

/-!
# `ImageBuild.Proofs.Reference.RoundTrip`: written references are read again

What is read from any text is in normal form (`IsNormal`): its parts are of the grammar, its
domain cannot be taken for a part of a path, the default registry goes by its usual name, and
paths in it have a name space. For a reference in normal form `splitDomain` cuts the full form
where `display` has joined it and fills nothing in (`splitDomain_join`), so the reference is read
back: `parse_display`. The default tag keeps the normal form, so the same holds of references that
are read with it. `display_roundTrip` puts this together with what follows from it: references
that are written alike are equal, and writing what was read gives a text that stays as it is.

Full forms have an alphabet of their own (`IsGrammatical.isOver_display`). A character outside of
it can be put between them and found again, as a comma is (`IsRead.comma_notMem_display`).
-/

set_option autoImplicit false

namespace ImageBuild.Reference

open Grammar

variable {domain remainder : List Char} {r s : Reference} {value : String}

/-! ### Domain and remainder -/

/-- Domain and remainder with the usual name and the official name space of the default registry
filled in. -/
def fillIn (domain remainder : List Char) : List Char × List Char :=
  let domain := if domain = legacyDomain then defaultDomain else domain
  if domain = defaultDomain && !remainder.contains '/' then
    (domain, officialSpace ++ '/' :: remainder)
  else (domain, remainder)

/-- A text without a slash is all remainder. -/
theorem splitDomain_of_notMem (h : '/' ∉ remainder) :
    splitDomain remainder = fillIn defaultDomain remainder := by
  have hend : remainder.dropWhile (· != '/') = [] :=
    List.dropWhile_eq_nil_iff.mpr (bne_of_notMem h)
  rw [splitDomain, hend]
  rfl

/-- What stands before the first slash is the domain if it looks like one. -/
theorem splitDomain_append (h : '/' ∉ domain) (remainder : List Char) :
    splitDomain (domain ++ '/' :: remainder) =
      if looksLikeDomain domain then fillIn domain remainder
      else fillIn defaultDomain (domain ++ '/' :: remainder) := by
  have hinside := bne_of_notMem h
  have hstop : ∀ c ∈ ('/' :: remainder).head?, (c != '/') = false := by simp
  rw [splitDomain, takeWhile_cut hinside hstop, dropWhile_cut hinside hstop]
  cases looksLikeDomain domain <;> rfl

/-- What looks like a domain still does when the default registry was filled in, and it is not the
older name of that registry, whose images all have a name space. -/
theorem fillIn_spec (h : looksLikeDomain domain = true) (remainder : List Char) :
    looksLikeDomain (fillIn domain remainder).1 = true ∧
    (fillIn domain remainder).1 ≠ legacyDomain ∧
      ((fillIn domain remainder).1 = defaultDomain → '/' ∈ (fillIn domain remainder).2) := by
  have hdefault : looksLikeDomain defaultDomain = true ∧ defaultDomain ≠ legacyDomain := by decide
  unfold fillIn
  dsimp only
  -- Whether the older name was replaced or not, the domain is recognised and is not that name.
  generalize hnamed : (if domain = legacyDomain then defaultDomain else domain) = named
  have hlooks : looksLikeDomain named = true ∧ named ≠ legacyDomain := by
    rw [← hnamed]
    split
    · exact hdefault
    · exact ⟨h, ‹_›⟩
  split
  · exact ⟨hlooks.1, hlooks.2, fun _ => by simp⟩
  · next hnospace =>
    have hspace : named = defaultDomain → '/' ∈ remainder := by simpa using hnospace
    exact ⟨hlooks.1, hlooks.2, hspace⟩

/-- The remainder is kept, with the name space in front of it or without. -/
theorem snd_fillIn (domain remainder : List Char) : (fillIn domain remainder).2 = remainder ∨
    (fillIn domain remainder).2 = officialSpace ++ '/' :: remainder := by
  unfold fillIn
  dsimp only
  generalize (if domain = legacyDomain then defaultDomain else domain) = named
  split
  · exact Or.inr rfl
  · exact Or.inl rfl

/-- Nothing is filled in where nothing is missing. -/
theorem fillIn_eq_self (hlegacy : domain ≠ legacyDomain)
    (hspace : domain = defaultDomain → '/' ∈ remainder) :
    fillIn domain remainder = (domain, remainder) := by
  unfold fillIn
  rw [if_neg hlegacy, if_neg]
  simpa using hspace

/-- The official name space is filled in where there is none. -/
theorem fillIn_of_notMem (h : '/' ∉ remainder) :
    fillIn defaultDomain remainder = (defaultDomain, officialSpace ++ '/' :: remainder) := by
  have hdefault : defaultDomain ≠ legacyDomain := by decide
  unfold fillIn
  rw [if_neg hdefault, if_pos]
  simpa using h

/-- What `splitDomain` answers is complete. -/
theorem splitDomain_spec (cs : List Char) : looksLikeDomain (splitDomain cs).1 = true ∧
    (splitDomain cs).1 ≠ legacyDomain ∧
    ((splitDomain cs).1 = defaultDomain → '/' ∈ (splitDomain cs).2) := by
  have hdefault : looksLikeDomain defaultDomain = true := by decide
  -- Both ways of cutting end in `fillIn`, with a domain that is recognised.
  obtain ⟨first, rest, rfl, hfirst, hrest⟩ := exists_cut (· != '/') cs
  have hslash : '/' ∉ first := fun hc => absurd (hfirst _ hc) (by decide)
  cases rest with
  | nil =>
    rw [List.append_nil, splitDomain_of_notMem hslash]
    exact fillIn_spec hdefault _
  | cons c more =>
    obtain rfl : c = '/' := by simpa using hrest c rfl
    rw [splitDomain_append hslash]
    split
    · exact fillIn_spec ‹_› _
    · exact fillIn_spec hdefault _

/-- A complete domain is found again where it was put before a slash. -/
theorem splitDomain_join (hslash : '/' ∉ domain) (hlooks : looksLikeDomain domain = true)
    (hlegacy : domain ≠ legacyDomain) (hspace : domain = defaultDomain → '/' ∈ remainder) :
    splitDomain (domain ++ '/' :: remainder) = (domain, remainder) := by
  rw [splitDomain_append hslash, if_pos hlooks, fillIn_eq_self hlegacy hspace]

/-! ### References in normal form -/

/-- The form of references that are read: nothing is left to fill in but a tag. -/
structure IsNormal (r : Reference) : Prop where
  grammatical : r.IsGrammatical
  recognised : looksLikeDomain r.domain.toList = true
  ne_legacy : r.domain.toList ≠ legacyDomain
  spaced : r.domain.toList = defaultDomain → '/' ∈ r.path.toList

/-- No slash follows the path. -/
theorem IsGrammatical.slash_notMem_suffix (h : r.IsGrammatical) : '/' ∉ r.suffix := by
  obtain ⟨domain, path, tag, digest⟩ := r
  have htag : ∀ cs ∈ tag, '/' ∉ cs.toList := fun cs hcs => (h.isTag cs hcs).slash_notMem
  have hdigest : ∀ cs ∈ digest, '/' ∉ cs.toList := fun cs hcs => (h.isDigest cs hcs).slash_notMem
  rcases tag with _ | tag <;> rcases digest with _ | digest <;>
    simp_all [suffix]

/-- What is read is in normal form. -/
theorem isNormal_of_parse (h : parse value = .ok r) : r.IsNormal := by
  obtain ⟨-, hspells⟩ := parse_eq_ok_iff.mp h
  obtain ⟨hlooks, hlegacy, hspace⟩ := splitDomain_spec value.toList
  rw [← hspells.domain_eq] at hlooks hlegacy hspace
  refine ⟨hspells.grammatical, hlooks, hlegacy, fun hdefault => ?_⟩
  -- The slash of the remainder cannot be in tag or digest.
  have hslash := hspace hdefault
  rw [← hspells.remainder_eq, List.mem_append] at hslash
  exact hslash.resolve_right hspells.grammatical.slash_notMem_suffix

/-- The full form is cut where it was joined. -/
theorem IsNormal.splitDomain_display (h : r.IsNormal) :
    splitDomain r.display.toList = (r.domain.toList, r.path.toList ++ r.suffix) := by
  have hchars : r.display.toList = r.domain.toList ++ '/' :: (r.path.toList ++ r.suffix) := by
    simp [display, nameChars]
  have hspace : r.domain.toList = defaultDomain → '/' ∈ r.path.toList ++ r.suffix :=
    fun hdefault => List.mem_append_left _ (h.spaced hdefault)
  rw [hchars]
  exact splitDomain_join h.grammatical.isDomain.slash_notMem h.recognised h.ne_legacy hspace

/-- The full form is read as the reference that it is the full form of. -/
theorem IsNormal.parse_display (h : r.IsNormal) : parse r.display = .ok r := by
  rw [parse_eq_ok_iff, h.splitDomain_display]
  refine ⟨fun hid => ?_, h.grammatical, rfl, rfl⟩
  -- The slash behind the domain is no character of an image id.
  have hslash : '/' ∈ r.display.toList := by simp [display, nameChars]
  exact absurd (hid.2 _ hslash) (by decide)

/-- The default tag is a tag. -/
theorem isTag_defaultTag : IsTag defaultTag.toList := isTag_iff.mp (by decide)

/-- A default tag keeps a reference normal. -/
theorem IsNormal.withDefaultTag (h : r.IsNormal) : r.withDefaultTag.IsNormal := by
  unfold Reference.withDefaultTag
  split
  · obtain ⟨⟨hdomain, hpath, htag, hdigest, hlength⟩, hlooks, hlegacy, hspace⟩ := h
    refine ⟨⟨hdomain, hpath, ?_, hdigest, hlength⟩, hlooks, hlegacy, hspace⟩
    rintro tag ⟨rfl⟩
    exact isTag_defaultTag
  · exact h

/-- A reference with the default tag has a tag or a digest. -/
theorem isSome_withDefaultTag (r : Reference) :
    r.withDefaultTag.tag.isSome = true ∨ r.withDefaultTag.digest.isSome = true := by
  unfold withDefaultTag
  obtain ⟨domain, path, tag, digest⟩ := r
  cases tag <;> cases digest <;> simp

/-- No tag is added to a reference that has a tag or a digest. -/
theorem withDefaultTag_eq_self (h : r.tag.isSome = true ∨ r.digest.isSome = true) :
    r.withDefaultTag = r := by
  unfold withDefaultTag
  rw [if_neg]
  rw [Bool.and_eq_true, Option.isNone_iff_eq_none, Option.isNone_iff_eq_none]
  rintro ⟨htag, hdigest⟩
  rw [htag, hdigest] at h
  exact absurd h (by decide)

/-- A mapped result is `ok` when the result was. -/
theorem map_eq_ok_iff {α β : Type} {f : α → β} {x : Except Defect α} {b : β} :
    x.map f = .ok b ↔ ∃ a, x = .ok a ∧ f a = b := by
  cases x <;> simp [Except.map]

/-- A tagged reading is a reading with the default tag. -/
theorem parseTagged_eq_ok_iff :
    parseTagged value = .ok r ↔ ∃ s, parse value = .ok s ∧ s.withDefaultTag = r :=
  map_eq_ok_iff

/-- A reference was read from a text, with or without the default tag. -/
def IsRead (r : Reference) : Prop := ∃ value, parse value = .ok r ∨ parseTagged value = .ok r

/-- A reference that was read is normal. -/
theorem IsRead.isNormal (h : r.IsRead) : r.IsNormal := by
  obtain ⟨value, hread | hread⟩ := h
  · exact isNormal_of_parse hread
  · obtain ⟨s, hs, rfl⟩ := parseTagged_eq_ok_iff.mp hread
    exact (isNormal_of_parse hs).withDefaultTag

/-- What is read with the default tag has a tag or a digest. -/
theorem isSome_of_parseTagged (h : parseTagged value = .ok r) :
    r.tag.isSome = true ∨ r.digest.isSome = true := by
  obtain ⟨s, -, rfl⟩ := parseTagged_eq_ok_iff.mp h
  exact isSome_withDefaultTag s

/-- What a tagged reference prints reads back as itself. -/
theorem parseTagged_display (h : parseTagged value = .ok r) : parseTagged r.display = .ok r := by
  have hnormal : r.IsNormal := IsRead.isNormal ⟨value, Or.inr h⟩
  exact parseTagged_eq_ok_iff.mpr
    ⟨r, hnormal.parse_display, withDefaultTag_eq_self (isSome_of_parseTagged h)⟩

/-- References that were read and are written alike are equal. -/
theorem IsRead.display_injective (hr : r.IsRead) (hs : s.IsRead) (heq : r.display = s.display) :
    r = s := by
  have hread := hr.isNormal.parse_display
  rw [heq, hs.isNormal.parse_display] at hread
  exact (Except.ok.inj hread).symm

/-! ### The alphabet of written references -/

/-- What may stand in a written reference besides letters and digits. -/
def punctuation : List Char := ['.', '_', '-', '/', ':', '@', '+', '[', ']']

/-- Tag and digest are printed in characters of their own. -/
theorem IsGrammatical.isOver_suffix (h : r.IsGrammatical) : IsOver punctuation r.suffix := by
  obtain ⟨domain, path, tag, digest⟩ := r
  refine IsOver.append ?_ ?_
  · cases tag with
    | none => exact .nil
    | some tag => exact .cons (by decide) ((h.isTag tag rfl).isOver.mono (by decide))
  · cases digest with
    | none => exact .nil
    | some digest => exact .cons (by decide) ((h.isDigest digest rfl).isOver.mono (by decide))

/-- The alphabet of full forms. -/
theorem IsGrammatical.isOver_display (h : r.IsGrammatical) :
    IsOver punctuation r.display.toList := by
  have hdomain : IsOver punctuation r.domain.toList := h.isDomain.isOver.mono (by decide)
  have hpath : IsOver punctuation r.path.toList := h.isPath.isOver.mono (by decide)
  rw [display, String.toList_ofList, nameChars, List.append_assoc]
  exact hdomain.append ((IsOver.cons (by decide) hpath).append h.isOver_suffix)

/-- No reference that was read is written with a comma. -/
theorem IsRead.comma_notMem_display (h : r.IsRead) : ',' ∉ r.display.toList :=
  h.isNormal.grammatical.isOver_display.notMem (by decide) (by decide)

/-! ### The round trip -/

/-- Written references are read again. The full form of a reference that was read is read as that
reference; with the default tag it has a tag or a digest, and its full form is read as that
reference again. So references that were read and are written alike are equal, and normalizing a
text once more changes nothing. -/
theorem display_roundTrip :
    (∀ (value : String) (r : Reference), parse value = .ok r → parse r.display = .ok r) ∧
    (∀ (value : String) (r : Reference), parseTagged value = .ok r →
      (r.tag.isSome = true ∨ r.digest.isSome = true) ∧ parseTagged r.display = .ok r) ∧
    (∀ r s : Reference, r.IsRead → s.IsRead → r.display = s.display → r = s) ∧
    (∀ value text : String, (parse value).map display = .ok text →
      (parse text).map display = .ok text) ∧
    ∀ value text : String, (parseTagged value).map display = .ok text →
      (parseTagged text).map display = .ok text := by
  refine ⟨fun value r h => (isNormal_of_parse h).parse_display, fun value r h => ?_,
    fun r s hr hs heq => hr.display_injective hs heq, fun value text h =>
      ?_, fun value text h => ?_⟩
  · exact ⟨isSome_of_parseTagged h, parseTagged_display h⟩
  · obtain ⟨r, hr, rfl⟩ := map_eq_ok_iff.mp h
    exact map_eq_ok_iff.mpr ⟨r, (isNormal_of_parse hr).parse_display, rfl⟩
  · obtain ⟨r, hr, rfl⟩ := map_eq_ok_iff.mp h
    exact map_eq_ok_iff.mpr ⟨r, parseTagged_display hr, rfl⟩

/-- The older name of the default registry and its name space are filled in once. -/
theorem display_roundTrip_legacy :
    parseTagged "index.docker.io/redis" =
      .ok ⟨"docker.io", "library/redis", some "latest", none⟩ ∧
      parseTagged "docker.io/library/redis:latest" =
        .ok ⟨"docker.io", "library/redis", some "latest", none⟩ := by
  have hread : parseTagged "index.docker.io/redis" =
      .ok ⟨"docker.io", "library/redis", some "latest", none⟩ :=
        eq_ok_of_toOption (by decide +kernel)
  exact ⟨hread, (display_roundTrip.2.1 _ _ hread).2⟩

end ImageBuild.Reference
