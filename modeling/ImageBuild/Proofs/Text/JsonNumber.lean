import ImageBuild.Proofs.Text.JsonGrammar

/-!
# `ImageBuild.Proofs.Text.JsonNumber`: numbers are read as the grammar has them

The reader splits a sign, digits, a fraction and an exponent off one after the other and takes as
much as it can each time. A number of the grammar is cut in the same way if what stands behind it
is not more of it (`Stops`).
-/

set_option autoImplicit false

namespace ImageBuild.Json

/-- What stands behind a number is not more of it. -/
def Stops (cs : List Char) : Prop :=
  ∀ c ∈ cs.head?, isDigit c = false ∧ c ≠ '.' ∧ c ≠ 'e' ∧ c ≠ 'E'

/-- The digits of the reader are those of the grammar. -/
theorem isDigit_iff (c : Char) : isDigit c = true ↔ '0' ≤ c ∧ c ≤ '9' := by
  simp [isDigit]

/-- The reader's value of digits is that of the grammar. -/
theorem digitsValue_eq (ds : List Char) : digitsValue ds = decimal ds := by
  unfold digitsValue decimal
  rw [Nat.ofDigits_eq_foldr, List.foldr_reverse, List.foldl_map]
  refine congrArg (fun f => ds.foldl f 0) (funext fun n => funext fun d => ?_)
  show 10 * n + (d.toNat - 48) = (d.toNat - 48) + 10 * n
  omega

/-- Digits are split off up to the first character that is none. -/
theorem splitDigits_append {ds behind : List Char} (hds : Digits ds)
    (hbehind : ∀ c ∈ behind.head?, isDigit c = false) :
    splitDigits (ds ++ behind) = some (ds, behind) := by
  have hall : ∀ d ∈ ds, isDigit d = true := fun d hd => (isDigit_iff d).mpr (hds.2 d hd)
  have hnone : behind.takeWhile isDigit = [] ∧ behind.dropWhile isDigit = behind := by
    cases behind with
    | nil => exact ⟨rfl, rfl⟩
    | cons c rest =>
      have hc := hbehind c rfl
      rw [List.takeWhile_cons, List.dropWhile_cons, hc]
      exact ⟨rfl, rfl⟩
  unfold splitDigits
  rw [List.takeWhile_append_of_pos hall, List.dropWhile_append_of_pos hall, hnone.1, hnone.2,
    List.append_nil]
  simp [hds.1]

/-- Digits start with a digit. -/
theorem Digits.head {ds behind more : List Char} {c : Char} (h : Digits ds)
    (heq : ds ++ behind = c :: more) : '0' ≤ c ∧ c ≤ '9' := by
  obtain ⟨d, rest, rfl⟩ := List.exists_cons_of_ne_nil h.1
  rw [List.cons_append, List.cons.injEq] at heq
  exact heq.1 ▸ h.2 d List.mem_cons_self

/-- What is split off are digits. -/
theorem digits_of_splitDigits {cs ds behind : List Char}
    (h : splitDigits cs = some (ds, behind)) :
    cs = ds ++ behind ∧ Digits ds := by
  unfold splitDigits at h
  dsimp only at h
  split_ifs at h with hempty
  obtain ⟨rfl, rfl⟩ := Prod.mk.inj (Option.some.inj h)
  refine ⟨List.takeWhile_append_dropWhile.symm, ?_, fun d hd => ?_⟩
  · simpa using hempty
  · exact (isDigit_iff d).mp (List.mem_takeWhile_imp hd)

/-- A fraction is split off to its end. -/
theorem splitFraction_append {fraction behind : List Char} (h : Fraction fraction)
    (hbehind : ∀ c ∈ behind.head?, isDigit c = false ∧ c ≠ '.') :
    splitFraction (fraction ++ behind) = some (fraction, behind) := by
  cases h with
  | none =>
    rw [List.nil_append]
    cases behind with
    | nil => rfl
    | cons c rest =>
      rw [splitFraction]
      intro more heq
      exact (hbehind c rfl).2 (List.cons.inj heq).1
  | some hds =>
    rw [List.cons_append, splitFraction, splitDigits_append hds fun c hc => (hbehind c hc).1]
    rfl

/-- What is split off is a fraction. -/
theorem fraction_of_splitFraction {cs fraction behind : List Char}
    (h : splitFraction cs = some (fraction, behind)) : cs = fraction ++ behind ∧
    Fraction fraction := by
  unfold splitFraction at h
  split at h
  next rest =>
    obtain ⟨⟨ds, after⟩, hsplit, heq⟩ := Option.map_eq_some_iff.mp h
    obtain ⟨rfl, rfl⟩ := Prod.mk.inj heq
    obtain ⟨rfl, hds⟩ := digits_of_splitDigits hsplit
    exact ⟨rfl, .some hds⟩
  next =>
    obtain ⟨rfl, rfl⟩ := Prod.mk.inj (Option.some.inj h)
    exact ⟨rfl, .none⟩

/-- An exponent is split off to its end. -/
theorem splitExponent_append {exponent behind : List Char} (h : Exponent exponent)
    (hbehind : ∀ c ∈ behind.head?, isDigit c = false ∧ c ≠ 'e' ∧ c ≠ 'E') :
    splitExponent (exponent ++ behind) = some (exponent, behind) := by
  cases h with
  | none =>
    rw [List.nil_append]
    cases behind with
    | nil => rfl
    | cons c rest =>
      obtain ⟨-, he, hE⟩ := hbehind c rfl
      simp [splitExponent, he, hE]
  | @some e sign ds he hsign hds =>
    have hletter : (decide (e = 'e') || decide (e = 'E')) = true := by simpa using he
    have hsplit := splitDigits_append hds fun c hc => (hbehind c hc).1
    rw [List.cons_append]
    unfold splitExponent
    dsimp only
    rw [if_pos hletter]
    rcases hsign with rfl | rfl | rfl
    · -- Without a sign the first character is a digit, and no sign.
      rw [List.nil_append]
      split
      next heq => exact absurd (hds.head heq) (by decide)
      next heq => exact absurd (hds.head heq) (by decide)
      next => rw [hsplit]; rfl
    · simp only [List.cons_append, List.nil_append, hsplit, Option.map_some]
    · simp only [List.cons_append, List.nil_append, hsplit, Option.map_some]

/-- What is split off is an exponent. -/
theorem exponent_of_splitExponent {cs exponent behind : List Char}
    (h : splitExponent cs = some (exponent, behind)) : cs = exponent ++ behind ∧
    Exponent exponent := by
  unfold splitExponent at h
  split at h
  next e rest =>
    split_ifs at h with hletter
    · have he : e = 'e' ∨ e = 'E' := by simpa using hletter
      split at h
      all_goals
        obtain ⟨⟨ds, after⟩, hsplit, heq⟩ := Option.map_eq_some_iff.mp h
        obtain ⟨rfl, rfl⟩ := Prod.mk.inj heq
        obtain ⟨rfl, hds⟩ := digits_of_splitDigits hsplit
      · exact ⟨rfl, .some he (.inr (.inl rfl)) hds⟩
      · exact ⟨rfl, .some he (.inr (.inr rfl)) hds⟩
      · exact ⟨rfl, .some he (.inl rfl) hds⟩
    · obtain ⟨rfl, rfl⟩ := Prod.mk.inj (Option.some.inj h)
      exact ⟨rfl, .none⟩
  next =>
    obtain ⟨rfl, rfl⟩ := Prod.mk.inj (Option.some.inj h)
    exact ⟨rfl, .none⟩

/-- The sign of a number, or nothing, and what is behind it. -/
def splitSign (cs : List Char) : List Char × List Char :=
  match cs with
  | '-' :: rest => (['-'], rest)
  | _ => ([], cs)

/-- What the parts of a number are together. -/
def ofParts (sign ds fraction exponent : List Char) : Json :=
  if fraction.isEmpty && exponent.isEmpty && (sign.isEmpty || ds != ['0']) then
    .int (if sign.isEmpty then (digitsValue ds : Int) else -(digitsValue ds : Int))
  else .real (sign ++ ds ++ fraction ++ exponent)

/-- Reads what stands behind the sign of a number. -/
def readParts (sign cs : List Char) : Option (Json × List Char) :=
  (splitDigits cs).bind fun (ds, cs) =>
    if ds.head? = some '0' && 1 < ds.length then none
    else (splitFraction cs).bind fun (fraction, cs) =>
      (splitExponent cs).bind fun (exponent, cs) => some (ofParts sign ds fraction exponent, cs)

/-- A number is read behind its sign. -/
theorem readNumber_eq (cs : List Char) :
    readNumber cs = readParts (splitSign cs).1 (splitSign cs).2 := by
  unfold readNumber readParts
  split
  next sign rest heq =>
    have hsign : splitSign cs = (sign, rest) := heq
    rw [hsign]
    refine Option.bind_congr fun parts _ => ?_
    by_cases hzero : (decide (parts.1.head? = some '0') && decide (1 < parts.1.length)) = true
    · simp only [if_pos hzero]
      rfl
    · simp only [if_neg hzero]
      refine Option.bind_congr fun fraction _ => Option.bind_congr fun exponent _ => ?_
      exact (apply_ite (fun v => some (v, exponent.2)) _ _ _).symm

/-- A number with whole digits, as the grammar has it. -/
theorem number_ofParts {sign ds fraction exponent : List Char} (hsign : sign = [] ∨ sign = ['-'])
    (hds : WholeDigits ds) (hfraction : Fraction fraction) (hexponent : Exponent exponent) :
    Number (sign ++ ds ++ fraction ++ exponent) (ofParts sign ds fraction exponent) := by
  unfold ofParts
  split
  next hwhole =>
    simp only [Bool.and_eq_true, Bool.or_eq_true, List.isEmpty_iff, bne_iff_ne] at hwhole
    obtain ⟨⟨rfl, rfl⟩, hnegative⟩ := hwhole
    rw [digitsValue_eq, List.append_nil, List.append_nil]
    rcases hsign with rfl | rfl
    · exact .whole hds
    · exact .negative hds (hnegative.resolve_left (by simp))
  next hreal =>
    refine .real hsign hds hfraction hexponent ?_
    simp only [Bool.and_eq_true, Bool.or_eq_true, List.isEmpty_iff, bne_iff_ne] at hreal
    rcases hsign with rfl | rfl
    · simp only [true_or, and_true, not_and_or] at hreal
      tauto
    · by_contra hnone
      simp only [not_or, not_and, not_not] at hnone
      exact hreal ⟨⟨hnone.1, hnone.2.1⟩, .inr (hnone.2.2 trivial)⟩

/-- The reader and the grammar agree on what the parts of a number are together. -/
theorem Number.exists_parts {cs : List Char} {v : Json} (h : Number cs v) :
    ∃ sign ds fraction exponent, cs = sign ++ ds ++ fraction ++ exponent ∧
      (sign = [] ∨ sign = ['-']) ∧ WholeDigits ds ∧ Fraction fraction ∧ Exponent exponent ∧
      ofParts sign ds fraction exponent = v := by
  cases h with
  | whole hds =>
    refine ⟨[], cs, [], [], by simp, .inl rfl, hds, .none, .none, ?_⟩
    simp [ofParts, digitsValue_eq]
  | @negative ds hds hzero =>
    refine ⟨['-'], ds, [], [], by simp, .inr rfl, hds, .none, .none, ?_⟩
    simp [ofParts, digitsValue_eq, hzero]
  | @real sign ds fraction exponent hsign hds hfraction hexponent hreal =>
    refine ⟨sign, ds, fraction, exponent, rfl, hsign, hds, hfraction, hexponent, if_neg ?_⟩
    simp only [Bool.and_eq_true, Bool.or_eq_true, List.isEmpty_iff, bne_iff_ne]
    rintro ⟨⟨rfl, rfl⟩, hwhole⟩
    rcases hreal with hne | hne | ⟨rfl, rfl⟩
    · exact hne rfl
    · exact hne rfl
    · simp at hwhole

/-- Digits are those of a whole number exactly if none leads them for nothing. -/
theorem wholeDigits_iff {ds : List Char} (h : Digits ds) :
    WholeDigits ds ↔ ¬ (decide (ds.head? = some '0') && decide (1 < ds.length)) = true := by
  obtain ⟨d, rest, rfl⟩ := List.exists_cons_of_ne_nil h.1
  simp only [WholeDigits, h, true_and, List.head?_cons, Option.some.injEq, Bool.and_eq_true,
    decide_eq_true_eq, List.cons.injEq, List.length_cons]
  cases rest <;> simp

/-- The sign is a minus or nothing. -/
theorem splitSign_cases (cs : List Char) :
    ∃ sign rest, splitSign cs = (sign, rest) ∧ cs = sign ++ rest ∧
      (sign = [] ∨ sign = ['-']) := by
  unfold splitSign
  split
  next rest => exact ⟨['-'], rest, rfl, rfl, .inr rfl⟩
  next => exact ⟨[], cs, rfl, rfl, .inl rfl⟩

/-- A sign is split off digits. -/
theorem splitSign_append {sign ds : List Char} (hsign : sign = [] ∨ sign = ['-'])
    (hds : Digits ds) (behind : List Char) :
      splitSign (sign ++ (ds ++ behind)) = (sign, ds ++ behind) := by
  rcases hsign with rfl | rfl
  · unfold splitSign
    rw [List.nil_append]
    split
    next heq => exact absurd (hds.head heq) (by decide)
    next => rfl
  · rfl

/-- What is read as a number is one. -/
theorem number_of_readNumber {cs behind : List Char} {v : Json}
    (h : readNumber cs = some (v, behind)) : ∃ body, cs = body ++ behind ∧ Number body v := by
  obtain ⟨sign, rest, hsplit, rfl, hsign⟩ := splitSign_cases cs
  rw [readNumber_eq, hsplit, readParts] at h
  obtain ⟨⟨ds, afterDigits⟩, hdigits, h⟩ := Option.bind_eq_some_iff.mp h
  dsimp only at h
  split_ifs at h with hzero
  obtain ⟨⟨fraction, afterFraction⟩, hfraction, h⟩ := Option.bind_eq_some_iff.mp h
  obtain ⟨⟨exponent, afterExponent⟩, hexponent, h⟩ := Option.bind_eq_some_iff.mp h
  obtain ⟨rfl, rfl⟩ := Prod.mk.inj (Option.some.inj h)
  obtain ⟨rfl, hds⟩ := digits_of_splitDigits hdigits
  obtain ⟨rfl, hfrac⟩ := fraction_of_splitFraction hfraction
  obtain ⟨rfl, hexp⟩ := exponent_of_splitExponent hexponent
  exact ⟨_, by simp, number_ofParts hsign ((wholeDigits_iff hds).mpr hzero) hfrac hexp⟩

/-- A number is read up to where it stops. -/
theorem Number.readNumber_append {cs behind : List Char} {v : Json} (h : Number cs v)
    (hbehind : Stops behind) : readNumber (cs ++ behind) = some (v, behind) := by
  obtain ⟨sign, ds, fraction, exponent, rfl, hsign, hds, hfraction, hexponent, rfl⟩ :=
    h.exists_parts
  have hafter : ∀ c ∈ behind.head?, isDigit c = false ∧ c ≠ 'e' ∧ c ≠ 'E' := fun c hc =>
    ⟨(hbehind c hc).1, (hbehind c hc).2.2⟩
  -- Neither a fraction nor an exponent starts with a digit, and no exponent with a point.
  have hpoint : ∀ c ∈ (exponent ++ behind).head?, isDigit c = false ∧ c ≠ '.' := by
    cases hexponent with
    | none => exact fun c hc => ⟨(hbehind c hc).1, (hbehind c hc).2.1⟩
    | some he =>
      rintro c ⟨⟩
      rcases he with rfl | rfl <;> decide
  have hdigit : ∀ c ∈ (fraction ++ (exponent ++ behind)).head?, isDigit c = false := by
    cases hfraction with
    | none => exact fun c hc => (hpoint c hc).1
    | some =>
      rintro c ⟨⟩
      decide
  simp only [List.append_assoc]
  rw [readNumber_eq, splitSign_append hsign hds.1, readParts, splitDigits_append hds.1 hdigit,
    Option.bind_some]
  dsimp only
  rw [if_neg ((wholeDigits_iff hds.1).mp hds), splitFraction_append hfraction hpoint,
    Option.bind_some]
  dsimp only
  rw [splitExponent_append hexponent hafter, Option.bind_some]

end ImageBuild.Json
