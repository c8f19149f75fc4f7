import ImageBuild.Proofs.Text.JsonGrammar

/-!
# `ImageBuild.Proofs.Text.JsonString`: strings are read as the grammar has them

The reader keeps the first half of a surrogate pair back until the second one comes, and marks the
string as unpaired where that does not happen. `Reading.Leads` says which text can still come out:
what was read, and the decoded pieces that are left with the waiting half in front of them.
Reading a piece changes nothing of this (`leads_add`), so the induction is on the pieces
(`finish_foldl_add`).
-/

set_option autoImplicit false

namespace ImageBuild.Json

/-! ### Pieces -/

/-- The letters of the grammar are those that the reader knows. -/
theorem simpleEscape_eq_some_iff (l c : Char) : simpleEscape l = some c ↔ (l, c) ∈ letters := by
  constructor
  · intro h
    unfold simpleEscape at h
    split_ifs at h with hself hb hf hn hr ht
    · obtain rfl := Option.some.inj h
      simp only [Bool.or_eq_true, decide_eq_true_eq] at hself
      rcases hself with (rfl | rfl) | rfl <;> decide
    all_goals
      obtain rfl := Option.some.inj h
      subst l
      decide
  · intro h
    simp only [letters, List.mem_cons, Prod.mk.injEq, List.not_mem_nil, or_false] at h
    rcases h with ⟨rfl, rfl⟩ | ⟨rfl, rfl⟩ | ⟨rfl, rfl⟩ | ⟨rfl, rfl⟩ | ⟨rfl, rfl⟩ | ⟨rfl, rfl⟩ |
      ⟨rfl, rfl⟩ | ⟨rfl, rfl⟩ <;> rfl

/-- The reader's values of hexadecimal digits are those of the grammar. -/
theorem hexValue_eq_some_iff (d : Char) (n : Nat) : hexValue d = some n ↔ IsHex d n := by
  unfold hexValue
  simp only [Bool.and_eq_true, decide_eq_true_eq]
  constructor
  · intro h
    split_ifs at h with hdigit hlower hupper
    · obtain rfl := Option.some.inj h
      exact .digit hdigit.1 hdigit.2
    · have hle : 97 ≤ d.toNat := hlower.1
      obtain rfl : 10 + (d.toNat - 97) = n := by
        have heq := Option.some.inj h
        omega
      exact .lower hlower.1 hlower.2
    · have hle : 65 ≤ d.toNat := hupper.1
      obtain rfl : 10 + (d.toNat - 65) = n := by
        have heq := Option.some.inj h
        omega
      exact .upper hupper.1 hupper.2
  · intro h
    -- The ranges do not overlap, so each digit is found in its own.
    cases h with
    | digit hlow hhigh => rw [if_pos ⟨hlow, hhigh⟩]; rfl
    | lower hlow hhigh =>
      have hle : 97 ≤ d.toNat := hlow
      have hnot : ¬ ('0' ≤ d ∧ d ≤ '9') := by
        rintro ⟨-, h9⟩
        have h57 : d.toNat ≤ 57 := h9
        omega
      rw [if_neg hnot, if_pos ⟨hlow, hhigh⟩]
      show some (d.toNat - 87) = some (10 + (d.toNat - 97))
      exact congrArg some (by omega)
    | upper hlow hhigh =>
      have hle : 65 ≤ d.toNat := hlow
      have hge : d.toNat ≤ 70 := hhigh
      have hnot : ¬ ('0' ≤ d ∧ d ≤ '9') := by
        rintro ⟨-, h9⟩
        have h57 : d.toNat ≤ 57 := h9
        omega
      have hnot' : ¬ ('a' ≤ d ∧ d ≤ 'f') := by
        rintro ⟨ha, -⟩
        have h97 : 97 ≤ d.toNat := ha
        omega
      rw [if_neg hnot, if_neg hnot', if_pos ⟨hlow, hhigh⟩]
      show some (d.toNat - 55) = some (10 + (d.toNat - 65))
      exact congrArg some (by omega)

/-- Four hexadecimal digits are read as the number that they are. -/
theorem hexWord_eq_some_iff (a b c d : Char) (w : Nat) : hexWord a b c d = some w ↔
    ∃ i j k l, IsHex a i ∧ IsHex b j ∧ IsHex c k ∧ IsHex d l ∧
      w = 4096 * i + 256 * j + 16 * k + l := by
  simp only [hexWord, bind, Option.bind_eq_some_iff, hexValue_eq_some_iff, pure,
    Option.some.injEq]
  constructor
  · rintro ⟨i, hi, j, hj, k, hk, l, hl, rfl⟩
    exact ⟨i, j, k, l, hi, hj, hk, hl, rfl⟩
  · rintro ⟨i, j, k, l, hi, hj, hk, hl, rfl⟩
    exact ⟨i, hi, j, hj, k, hk, l, hl, rfl⟩

namespace Reading

/-- Adds a piece. -/
def add (r : Reading) : Piece → Reading
  | .char c => r.push c
  | .unit w => r.pushWord w

/-- A first half of a pair waits for its other half. -/
theorem pushWord_high {r : Reading} {w : Nat} (h : IsHigh w) :
    r.pushWord w = ⟨r.chars, some w, r.paired && r.high.isNone⟩ := if_pos h

/-- A second half makes a character with the first half before it. -/
theorem pushWord_low {w : Nat} (h : IsLow w) (hnot : ¬ IsHigh w) (collected : List Char)
    (high : Option Nat) (paired : Bool) :
    pushWord ⟨collected, high, paired⟩ w =
      match high with
      | some h => ⟨Char.ofNat (0x10000 + 0x400 * (h - 0xD800) + (w - 0xDC00)) :: collected, none,
          paired⟩
      | none => ⟨collected, none, false⟩ := by
  unfold IsHigh at hnot
  unfold IsLow at h
  unfold pushWord
  exact (if_neg hnot).trans (if_pos h)

/-- Any other word is a character by itself. -/
theorem pushWord_char {r : Reading} {w : Nat} (hhigh : ¬ IsHigh w) (hlow : ¬ IsLow w) :
    r.pushWord w = r.push (Char.ofNat w) := by
  unfold IsHigh at hhigh
  unfold IsLow at hlow
  unfold pushWord
  rw [if_neg hhigh, if_neg hlow]

end Reading

/-- Pieces are read up to the closing quotation mark. -/
theorem Pieces.readString_append {inside : List Char} {ps : List Piece} (h : Pieces inside ps)
    (r : Reading) (behind : List Char) :
    readString r (inside ++ '"' :: behind) = some ((ps.foldl Reading.add r).finish, behind) := by
  -- One kind of piece is one branch of the reader.
  induction h generalizing r with
  | nil => rfl
  | @plain c cs ps hlow hquote hslash _ ih =>
    have hplain : ¬ (decide (c.toNat < 32) || decide (c = '\\')) = true := by simp [hslash, hlow]
    rw [List.cons_append, readString, if_neg hplain, ih]
    · rfl
    · exact hquote
    · simp [hslash]
    · simp [hslash]
  | @letter l c cs ps hl _ ih =>
    have hread := (simpleEscape_eq_some_iff l c).mpr hl
    rw [List.cons_append, List.cons_append, readString]
    · simp only [hread]
      exact ih _
    · rintro a b c d rest rfl
      cases hread
  | @number a b c d i j k l cs ps ha hb hc hd _ ih =>
    have hread : hexWord a b c d = some (4096 * i + 256 * j + 16 * k + l) :=
      (hexWord_eq_some_iff a b c d _).mpr ⟨i, j, k, l, ha, hb, hc, hd, rfl⟩
    simp only [List.cons_append, readString, hread]
    exact ih _

/-- What is read as a string is made of pieces. -/
theorem exists_pieces {r : Reading} {cs behind : List Char} {s : Option String}
    (h : readString r cs = some (s, behind)) :
    ∃ inside ps, cs = inside ++ '"' :: behind ∧ Pieces inside ps ∧
      s = (ps.foldl Reading.add r).finish := by
  fun_induction readString r cs with
  | case1 | case4 | case6 | case7 => cases h
  | case2 r rest =>
    obtain ⟨rfl, rfl⟩ := Prod.mk.inj (Option.some.inj h)
    exact ⟨[], [], rfl, .nil, rfl⟩
  | case3 r a b c d rest w hw ih =>
    obtain ⟨inside, ps, rfl, hps, hs⟩ := ih h
    obtain ⟨i, j, k, l, hi, hj, hk, hl, rfl⟩ := (hexWord_eq_some_iff a b c d w).mp hw
    exact ⟨_, _, rfl, .number hi hj hk hl hps, hs⟩
  | case5 r l rest _ c hc ih =>
    obtain ⟨inside, ps, rfl, hps, hs⟩ := ih h
    exact ⟨_, _, rfl, .letter ((simpleEscape_eq_some_iff l c).mp hc) hps, hs⟩
  | case8 r c rest hquote _ _ hplain ih =>
    obtain ⟨inside, ps, rfl, hps, hs⟩ := ih h
    simp only [Bool.or_eq_true, decide_eq_true_eq, not_or, Nat.not_lt] at hplain
    exact ⟨_, _, rfl, .plain hplain.1 hquote hplain.2 hps, hs⟩

section
variable {ps : List Piece} {cs : List Char}

/-- No pieces decode to no characters. -/
theorem decodes_nil_iff : Decodes [] cs ↔ cs = [] := by
  constructor
  · intro h
    cases h with
    | nil => rfl
  · rintro rfl
    exact .nil

/-- A character in the text stands for itself. -/
theorem decodes_char_iff {c : Char} :
    Decodes (.char c :: ps) cs ↔ ∃ rest, cs = c :: rest ∧ Decodes ps rest := by
  constructor
  · intro h
    cases h with
    | char hrest => exact ⟨_, rfl, hrest⟩
  · rintro ⟨rest, rfl, hrest⟩
    exact .char hrest

/-- An escaped word that is no half of a pair stands for its character. -/
theorem decodes_unit_iff {w : Nat} (hhigh : ¬ IsHigh w) (hlow : ¬ IsLow w) :
    Decodes (.unit w :: ps) cs ↔ ∃ rest, cs = Char.ofNat w :: rest ∧ Decodes ps rest := by
  constructor
  · intro h
    cases h with
    | unit _ _ hrest => exact ⟨_, rfl, hrest⟩
    | pair hw => exact absurd hw hhigh
  · rintro ⟨rest, rfl, hrest⟩
    exact .unit hhigh hlow hrest

/-- Two escaped halves stand for the character they make together. -/
theorem decodes_pair_iff {h l : Nat} (hhigh : IsHigh h) (hlow : IsLow l) :
    Decodes (.unit h :: .unit l :: ps) cs ↔
      ∃ rest, cs = Char.ofNat (0x10000 + 0x400 * (h - 0xD800) + (l - 0xDC00)) :: rest ∧
        Decodes ps rest := by
  constructor
  · intro hdecodes
    cases hdecodes with
    | unit hnot => exact absurd hhigh hnot
    | pair _ _ hrest => exact ⟨_, rfl, hrest⟩
  · rintro ⟨rest, rfl, hrest⟩
    exact .pair hhigh hlow hrest

/-- A second half is never the first of some pieces that decode. -/
theorem not_decodes_low {l : Nat} (hlow : IsLow l) : ¬ Decodes (.unit l :: ps) cs := by
  intro h
  cases h with
  | unit _ hnot => exact hnot hlow
  | pair hhigh =>
    have hlt := hhigh.2
    have hle := hlow.1
    omega

/-- Behind a first half stands the second one. -/
theorem not_decodes_high {h : Nat} (hhigh : IsHigh h)
    (hps : ∀ l more, ps = .unit l :: more → ¬ IsLow l) : ¬ Decodes (.unit h :: ps) cs := by
  intro hdecodes
  cases hdecodes with
  | unit hnot => exact hnot hhigh
  | pair _ hlow => exact hps _ _ rfl hlow

end

namespace Reading

/-- The half that waits for its other half. -/
def waiting (r : Reading) : List Piece :=
  match r.high with
  | some h => [.unit h]
  | none => []

/-- Whether what was read and the pieces that are left are a text. -/
def Leads (r : Reading) (ps : List Piece) (s : String) : Prop :=
  r.paired = true ∧ ∃ cs, Decodes (r.waiting ++ ps) cs ∧ s = String.ofList (r.chars.reverse ++ cs)

/-- What waits is the first half of a pair. -/
def WaitsRight (r : Reading) : Prop := ∀ h ∈ r.high, IsHigh h

/-- A decoded character may as well have been read before. -/
theorem leads_push {r r' : Reading} {c : Char} {ps ps' : List Piece} {s : String}
    (hchars : r'.chars = c :: r.chars) (hpaired : r'.paired = r.paired)
    (h : ∀ cs, Decodes (r.waiting ++ ps) cs ↔ ∃ rest, cs = c :: rest ∧
      Decodes (r'.waiting ++ ps') rest) :
    r'.Leads ps' s ↔ r.Leads ps s := by
  unfold Leads
  rw [hchars, hpaired]
  refine and_congr_right fun _ => ⟨?_, ?_⟩
  · rintro ⟨rest, hrest, rfl⟩
    exact ⟨c :: rest, (h _).mpr ⟨rest, rfl, hrest⟩, by simp⟩
  · rintro ⟨cs, hcs, rfl⟩
    obtain ⟨rest, rfl, hrest⟩ := (h cs).mp hcs
    exact ⟨rest, hrest, by simp⟩

/-- A half that was left alone leads to no text, and none is decoded. -/
theorem leads_unpaired {r r' : Reading} {ps ps' : List Piece} {s : String}
    (hpaired : r'.paired = false) (h : ∀ cs, ¬ Decodes (r.waiting ++ ps) cs) :
    r'.Leads ps' s ↔ r.Leads ps s := by
  unfold Leads
  simp [hpaired, h]

/-- Reading a piece keeps what can be read. -/
theorem leads_add {r : Reading} (hwaits : r.WaitsRight) (p : Piece) (ps : List Piece)
    (s : String) :
    (r.add p).Leads ps s ↔ r.Leads (p :: ps) s := by
  obtain ⟨collected, high, paired⟩ := r
  -- A half that waits makes the difference: the next piece completes it or leaves it alone.
  cases high with
  | none =>
    cases p with
    | char c => exact leads_push rfl (Bool.and_true _) fun cs => decodes_char_iff
    | unit w =>
      show (pushWord _ w).Leads ps s ↔ _
      by_cases hhigh : IsHigh w
      · rw [pushWord_high hhigh]
        unfold Leads waiting
        simp
      · by_cases hlow : IsLow w
        · rw [pushWord_low hlow hhigh]
          exact leads_unpaired rfl fun cs => not_decodes_low hlow
        · rw [pushWord_char hhigh hlow]
          exact leads_push rfl (Bool.and_true _) fun cs => decodes_unit_iff hhigh hlow
  | some h =>
    have hh : IsHigh h := hwaits h rfl
    cases p with
    | char c => exact leads_unpaired (Bool.and_false _) fun cs => not_decodes_high hh (by simp)
    | unit w =>
      show (pushWord _ w).Leads ps s ↔ _
      by_cases hlow : IsLow w
      · have hnot : ¬ IsHigh w := by
          rintro ⟨-, hlt⟩
          have hle := hlow.1
          omega
        rw [pushWord_low hlow hnot]
        exact leads_push rfl rfl fun cs => decodes_pair_iff hh hlow
      · have halone : ∀ cs, ¬ Decodes (.unit h :: .unit w :: ps) cs := fun cs =>
          not_decodes_high hh fun l more heq => by
            obtain ⟨hl, -⟩ := List.cons.inj heq
            cases hl
            exact hlow
        by_cases hhigh : IsHigh w
        · rw [pushWord_high hhigh]
          exact leads_unpaired (Bool.and_false _) halone
        · rw [pushWord_char hhigh hlow]
          exact leads_unpaired (Bool.and_false _) halone

/-- After each piece it is a first half that waits, and nothing else. -/
theorem waitsRight_add (r : Reading) (p : Piece) : (r.add p).WaitsRight := by
  cases p with
  | char c => simp [add, push, WaitsRight]
  | unit w =>
    show (pushWord _ w).WaitsRight
    by_cases hhigh : IsHigh w
    · rw [pushWord_high hhigh]
      simpa [WaitsRight] using hhigh
    · by_cases hlow : IsLow w
      · rw [pushWord_low hlow hhigh]
        cases r.high <;> simp [WaitsRight]
      · rw [pushWord_char hhigh hlow]
        simp [push, WaitsRight]

/-- Once there is nothing more to read, the string is a text unless a half is alone. -/
theorem finish_eq_some_iff {r : Reading} (hwaits : r.WaitsRight) (s : String) :
    r.finish = some s ↔ r.Leads [] s := by
  obtain ⟨collected, high, paired⟩ := r
  cases high with
  | none => cases paired <;> simp [finish, Leads, waiting, decodes_nil_iff, eq_comm]
  | some h =>
    have halone : ∀ cs, ¬ Decodes [.unit h] cs :=
      fun cs => not_decodes_high (hwaits h rfl) (by simp)
    simp [finish, Leads, waiting, halone]

/-- The string is the text that its pieces are, if they are one. -/
theorem finish_foldl_add {r : Reading} (hwaits : r.WaitsRight) (ps : List Piece) (s : String) :
    (ps.foldl add r).finish = some s ↔ r.Leads ps s := by
  induction ps generalizing r with
  | nil => exact finish_eq_some_iff hwaits s
  | cons p ps ih => rw [List.foldl_cons, ih (waitsRight_add r p), leads_add hwaits]

end Reading

/-- The reader at the beginning of a string. -/
def Reading.start : Reading := ⟨[], none, true⟩

/-- The pieces of a text are read as the characters they decode to. -/
theorem finish_pieces_iff (ps : List Piece) (s : String) :
    (ps.foldl Reading.add .start).finish = some s ↔ Decodes ps s.toList := by
  rw [Reading.finish_foldl_add (by simp [Reading.WaitsRight, Reading.start])]
  simp only [Reading.Leads, Reading.start, Reading.waiting, List.nil_append, List.reverse_nil,
    true_and]
  constructor
  · rintro ⟨cs, hcs, rfl⟩
    rwa [String.toList_ofList]
  · intro h
    exact ⟨s.toList, h, String.ofList_toList.symm⟩

/-- What stands in quotation marks is what is read of the pieces in between. -/
theorem quoted_of_pieces {inside : List Char} {ps : List Piece} (h : Pieces inside ps) :
    Quoted ('"' :: inside ++ ['"']) (ps.foldl Reading.add .start).finish := by
  cases hfinish : (ps.foldl Reading.add .start).finish with
  | some s => exact .text h ((finish_pieces_iff ps s).mp hfinish)
  | none =>
    refine .unpaired h fun cs hcs => ?_
    rw [← String.toList_ofList (l := cs), ← finish_pieces_iff, hfinish] at hcs
    cases hcs

/-- What is read as a string stands in quotation marks. -/
theorem exists_quoted {cs behind : List Char} {s : Option String}
    (h : readString .start cs = some (s, behind)) :
    ∃ key, '"' :: cs = key ++ behind ∧ Quoted key s := by
  obtain ⟨inside, ps, rfl, hps, rfl⟩ := exists_pieces h
  exact ⟨_, by simp, quoted_of_pieces hps⟩

/-- A string in quotation marks is read from behind the first of these. -/
theorem Quoted.readString_append {key : List Char} {s : Option String} (h : Quoted key s)
    (behind : List Char) :
    ∃ inside, key ++ behind = '"' :: inside ∧ readString .start inside = some (s, behind) := by
  cases h with
  | @text inside ps s hps hs =>
    refine ⟨inside ++ '"' :: behind, by simp, ?_⟩
    rw [hps.readString_append, (finish_pieces_iff ps s).mpr hs]
  | @unpaired inside ps hps hnot =>
    refine ⟨inside ++ '"' :: behind, by simp, ?_⟩
    rw [hps.readString_append]
    cases hfinish : (ps.foldl Reading.add .start).finish with
    | none => rfl
    | some s => exact absurd ((finish_pieces_iff ps s).mp hfinish) (hnot _)

end ImageBuild.Json
