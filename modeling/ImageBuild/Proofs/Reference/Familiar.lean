import ImageBuild.Proofs.Reference.RoundTrip

/-!
# `ImageBuild.Proofs.Reference.Familiar`: which short forms name the same image

`Reference.familiar` leaves out the default registry and its official name space, and reading
guesses both from the first component. The guess is right for a bare name, since the name space is
only left out where no slash remains, and for a path whose first component cannot be taken for a
registry. It is wrong for references of the default registry whose first component has a dot or is
`localhost` (`IsMistakable`): their short form reads as another image, if it is read at all.

`parseTagged_familiar` says that this is the only exception. It rests on `splitDomain_familiar`,
one case for each form of `familiarPath`.
-/

set_option autoImplicit false

namespace ImageBuild.Reference

open Grammar

variable {first rest : List Char} {r s : Reference} {value : String}

/-- The first component of a path. -/
def firstComponent (path : List Char) : List Char := path.takeWhile (· != '/')

/-- A reference of the default registry whose first component can be taken for a registry
itself. -/
def IsMistakable (r : Reference) : Prop :=
  r.domain.toList = defaultDomain ∧
    ('.' ∈ firstComponent r.path.toList ∨ firstComponent r.path.toList = localhost)

/-- The first component ends at the first slash. -/
theorem firstComponent_append (h : '/' ∉ first) (rest : List Char) :
    firstComponent (first ++ '/' :: rest) = first :=
  takeWhile_cut (bne_of_notMem h) (by simp)

/-- Nothing in a path looks like a domain but a dot, or the name of the local host. -/
theorem looksLikeDomain_iff_of_isPath (h : IsPath (first ++ '/' :: rest)) :
    looksLikeDomain first = true ↔ '.' ∈ first ∨ first = localhost := by
  have hcolon : ':' ∉ first := by
    intro hc
    exact absurd (h.isPathChar _ (List.mem_append_left _ hc)) (by decide)
  have hupper : first.any isUpper = false := by
    have hwhole := any_isUpper_of_isPath h
    rw [List.any_append, Bool.or_eq_false_iff] at hwhole
    exact hwhole.1
  simp only [looksLikeDomain, hupper, Bool.or_false, Bool.or_eq_true, List.any_eq_true,
    beq_iff_eq]
  constructor
  · rintro (⟨c, hc, rfl | rfl⟩ | hlocal)
    · exact Or.inl hc
    · exact absurd hc hcolon
    · exact Or.inr hlocal
  · rintro (hdot | hlocal)
    · exact Or.inl ⟨'.', hdot, Or.inl rfl⟩
    · exact Or.inr hlocal

/-! ### Where the short form is cut -/

/-- The path of the default registry in the short form. -/
theorem familiarPath_append (h : '/' ∉ first) (rest : List Char) :
    familiarPath (first ++ '/' :: rest) =
      if first = officialSpace ∧ '/' ∉ rest then rest else first ++ '/' :: rest := by
  have hinside := bne_of_notMem h
  have hstop : ∀ c ∈ ('/' :: rest).head?, (c != '/') = false := by simp
  rw [familiarPath, takeWhile_cut hinside hstop, dropWhile_cut hinside hstop]
  simp

/-- A first component that is taken for a domain is lost: the remainder is no longer the whole. -/
theorem fillIn_ne (hspace : first ≠ officialSpace) (domain rest : List Char) :
    (fillIn domain rest).2 ≠ first ++ '/' :: rest := by
  intro heq
  rcases snd_fillIn domain rest with hrest | hrest
  · have hlength := congrArg List.length (hrest.symm.trans heq)
    simp only [List.length_append, List.length_cons] at hlength
    omega
  · exact hspace (List.append_cancel_right (hrest.symm.trans heq)).symm

/-- In another registry nothing is left out. -/
theorem familiar_eq_display (h : r.domain.toList ≠ defaultDomain) : r.familiar = r.display := by
  unfold familiar display
  rw [if_neg h]

/-- In the default registry the short form is a path and what follows it. -/
theorem toList_familiar (h : r.domain.toList = defaultDomain) :
    r.familiar.toList = familiarPath r.path.toList ++ r.suffix := by
  unfold familiar
  rw [if_pos h, String.toList_ofList]

/-- Tag and digest stand behind the name in the short form, too. -/
theorem exists_toList_familiar (r : Reference) : ∃ short, r.familiar.toList = short ++ r.suffix :=
  ⟨_, String.toList_ofList⟩

/-- The short form is cut where the reference was joined, unless the reference can be mistaken. -/
theorem IsNormal.splitDomain_familiar (h : r.IsNormal) :
    splitDomain r.familiar.toList = (r.domain.toList, r.path.toList ++ r.suffix) ↔
      ¬ r.IsMistakable := by
  have hsuffix := h.grammatical.slash_notMem_suffix
  by_cases hdefault : r.domain.toList = defaultDomain
  · obtain ⟨first, rest, hpath, hfirst⟩ := List.eq_append_cons_of_mem (h.spaced hdefault)
    have hgrammar := h.grammatical.isPath
    rw [IsMistakable, toList_familiar hdefault, hdefault]
    rw [hpath] at hgrammar ⊢
    rw [familiarPath_append hfirst, firstComponent_append hfirst,
      ← looksLikeDomain_iff_of_isPath hgrammar]
    split
    · -- Without a slash the text is all remainder, and the name space is filled in again.
      next hofficial =>
      have hslash : '/' ∉ rest ++ r.suffix := by simp [hofficial.2, hsuffix]
      have hlooks : Reference.looksLikeDomain officialSpace = false := by decide
      rw [splitDomain_of_notMem hslash, fillIn_of_notMem hslash, hofficial.1, List.append_assoc,
        List.cons_append]
      simp [hlooks]
    · rw [List.append_assoc, List.cons_append, splitDomain_append hfirst]
      split
      · -- The first component is taken for a domain, so what is left is not the whole.
        next hlooks =>
        have hspace : first ≠ officialSpace := by
          rintro rfl
          exact absurd hlooks (by decide)
        simp only [hlooks, and_self, not_true_eq_false, iff_false]
        exact fun heq => fillIn_ne hspace first _ (congrArg Prod.snd heq)
      · -- Nothing is taken for a domain: the whole is the path again.
        next hlooks =>
        have hfilled : fillIn defaultDomain (first ++ '/' :: (rest ++ r.suffix)) =
            (defaultDomain, first ++ '/' :: (rest ++ r.suffix)) :=
          fillIn_eq_self (by decide) (by simp)
        simp [hlooks, hfilled]
  · rw [familiar_eq_display hdefault, h.splitDomain_display]
    simp [IsMistakable, hdefault]

/-! ### Reading the short form -/

/-- A text is read as a reference of the grammar if it is cut where that reference was joined. -/
theorem IsGrammatical.parse_eq_ok_iff (h : r.IsGrammatical) : parse value = .ok r ↔
    ¬ IsIdentifier value.toList ∧
      splitDomain value.toList = (r.domain.toList, r.path.toList ++ r.suffix) := by
  rw [Reference.parse_eq_ok_iff, Prod.ext_iff]
  constructor
  · rintro ⟨hid, hspells⟩
    exact ⟨hid, hspells.domain_eq.symm, hspells.remainder_eq.symm⟩
  · rintro ⟨hid, hdomain, hremainder⟩
    exact ⟨hid, h, hdomain.symm, hremainder.symm⟩

/-- A reference that has neither tag nor digest is written as a path. -/
theorem suffix_eq_nil (htag : r.tag = none) (hdigest : r.digest = none) : r.suffix = [] := by
  rw [suffix, htag, hdigest]
  rfl

/-- Tag and digest start with a character that ends a path. -/
theorem exists_endsPath_suffix (h : r.tag.isSome = true ∨ r.digest.isSome = true) :
    ∃ c ∈ r.suffix, endsPath c = true := by
  obtain ⟨domain, path, tag, digest⟩ := r
  rcases tag with _ | tag
  · rcases digest with _ | digest
    · simp at h
    · exact ⟨'@', by simp [suffix], rfl⟩
  · exact ⟨':', by simp [suffix], rfl⟩

/-- No image id has a character that ends a path. -/
theorem not_isIdentifier_of_endsPath {cs : List Char} {c : Char} (hc : c ∈ cs)
    (hends : endsPath c = true) : ¬ IsIdentifier cs := by
  rintro ⟨-, hhex⟩
  simp only [endsPath, Bool.or_eq_true, beq_iff_eq] at hends
  obtain rfl | rfl := hends <;> exact absurd (hhex _ hc) (by decide)

/-- What stands behind the last slash is never taken for a part of the domain. -/
theorem exists_snd_splitDomain (short : List Char) {suffix : List Char} (h : '/' ∉ suffix) :
    ∃ front, (splitDomain (short ++ suffix)).2 = front ++ suffix := by
  -- Filling in puts something in front, if it changes the remainder at all.
  have hfilled : ∀ domain front : List Char, ∃ front', (fillIn domain (front ++ suffix)).2 =
      front' ++ suffix := by
    intro domain front
    rcases snd_fillIn domain (front ++ suffix) with heq | heq
    · exact ⟨front, heq⟩
    · refine ⟨officialSpace ++ '/' :: front, ?_⟩
      rw [heq, List.append_assoc, List.cons_append]
  by_cases hslash : '/' ∈ short
  · obtain ⟨first, rest, rfl, hfirst⟩ := List.eq_append_cons_of_mem hslash
    have hwhole := hfilled defaultDomain (first ++ '/' :: rest)
    rw [List.append_assoc, List.cons_append] at hwhole ⊢
    rw [splitDomain_append hfirst]
    split
    · exact hfilled first rest
    · exact hwhole
  · rw [splitDomain_of_notMem (by simp [hslash, h])]
    exact hfilled defaultDomain short

/-- A reference with tag or digest is read from a text that has that tag or digest, so no default
tag was added to it. -/
theorem IsNormal.parse_of_parseTagged (h : r.IsNormal)
    (hsome : r.tag.isSome = true ∨ r.digest.isSome = true) {short : List Char}
    (hvalue : value.toList = short ++ r.suffix) (hread : parseTagged value = .ok r) :
    parse value = .ok r := by
  obtain ⟨s, hs, hdefault⟩ := parseTagged_eq_ok_iff.mp hread
  obtain ⟨front, hfront⟩ := exists_snd_splitDomain short h.grammatical.slash_notMem_suffix
  obtain ⟨-, hspells⟩ := parse_eq_ok_iff.mp hs
  have hparts := hspells.remainder_eq
  rw [hvalue, hfront] at hparts
  obtain ⟨c, hc, hends⟩ := exists_endsPath_suffix hsome
  have htagged : s.tag.isSome = true ∨ s.digest.isSome = true := by
    -- Otherwise the text would be all path behind its domain.
    by_contra hnone
    simp only [not_or, Bool.not_eq_true, Option.isSome_eq_false_iff, Option.isNone_iff_eq_none]
      at hnone
    rw [suffix_eq_nil hnone.1 hnone.2, List.append_nil] at hparts
    have hpath := not_endsPath_of_isPath hspells.grammatical.isPath c
    rw [hparts, hends] at hpath
    exact absurd (hpath (List.mem_append_right _ hc)) (by decide)
  rw [hs, ← hdefault, withDefaultTag_eq_self htagged]

/-- The short form of a reference that was read names the same image, unless the reference is of
the default registry and its first component has a dot or is the local host: the short form is
read as the reference that it is the short form of exactly in the other cases. -/
theorem parseTagged_familiar (value : String) (r : Reference) (h : parseTagged value = .ok r) :
    parseTagged r.familiar = .ok r ↔ ¬ r.IsMistakable := by
  have hnormal : r.IsNormal := IsRead.isNormal ⟨value, Or.inr h⟩
  have hsome := isSome_of_parseTagged h
  obtain ⟨short, hshort⟩ := exists_toList_familiar r
  have hid : ¬ IsIdentifier r.familiar.toList := by
    obtain ⟨c, hc, hends⟩ := exists_endsPath_suffix hsome
    rw [hshort]
    exact not_isIdentifier_of_endsPath (List.mem_append_right _ hc) hends
  rw [← hnormal.splitDomain_familiar]
  constructor
  · intro hread
    exact (hnormal.grammatical.parse_eq_ok_iff.mp
      (hnormal.parse_of_parseTagged hsome hshort hread)).2
  · intro hcut
    have hread := hnormal.grammatical.parse_eq_ok_iff.mpr ⟨hid, hcut⟩
    exact parseTagged_eq_ok_iff.mpr ⟨r, hread, withDefaultTag_eq_self hsome⟩

/-- Of two references of the default registry, the bare name goes by its short form; `localhost`
in front of the other is taken for a registry. -/
theorem parseTagged_familiar_localhost :
    (∃ r, parseTagged "docker.io/library/app" = .ok r ∧ r.familiar = "app:latest" ∧
      parseTagged "app:latest" = .ok r) ∧
    ∃ r, parseTagged "docker.io/localhost/app" = .ok r ∧ r.familiar = "localhost/app:latest" ∧
      parseTagged "localhost/app:latest" ≠ .ok r := by
  have hbare : parseTagged "docker.io/library/app" =
      .ok ⟨"docker.io", "library/app", some "latest", none⟩ :=
        eq_ok_of_toOption (by decide +kernel)
  have hlocal : parseTagged "docker.io/localhost/app" =
      .ok ⟨"docker.io", "localhost/app", some "latest", none⟩ :=
        eq_ok_of_toOption (by decide +kernel)
  refine ⟨⟨_, hbare, by decide +kernel, ?_⟩, _, hlocal, by decide +kernel, ?_⟩
  · have hread := (parseTagged_familiar _ _ hbare).mpr (by unfold IsMistakable; decide +kernel)
    exact hread
  · intro hread
    exact (parseTagged_familiar _ _ hlocal).mp hread (by unfold IsMistakable; decide +kernel)

end ImageBuild.Reference
