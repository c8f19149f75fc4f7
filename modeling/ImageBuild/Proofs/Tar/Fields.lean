import ImageBuild.Tar.Header
import Mathlib.Algebra.Ring.Nat

/-!
# `ImageBuild.Proofs.Tar.Fields`: numbers in header fields

Archivers spell the numbers of a header in slightly different ways: with zeros or blanks in front,
with a blank or a NUL behind, and large sizes in base 256. `IsOctal` and `IsNumber` say which
fields spell a number, and `octal_eq`, `octal?_eq` and `number_eq` that each of them is read as
that number.
-/

set_option autoImplicit false

namespace ImageBuild

/-! ### Text of single bytes -/

/-- Bytes below `0x80` are characters by themselves. -/
theorem Utf8.pieces_of_ascii {bytes : Bytes} (h : ∀ b ∈ bytes, b < 0x80) :
    pieces bytes = bytes.map fun b => .char (Char.ofNat b.toNat) := by
  induction bytes with
  | nil => rw [pieces]; rfl
  | cons b rest ih =>
    have hb : b < 0x80 := h b List.mem_cons_self
    have hhead : headPiece b rest = (.char (Char.ofNat b.toNat), 0) := by
      simp [headPiece, sequenceLength, hb]
    rw [pieces, hhead]
    dsimp only
    rw [List.drop_zero, ih fun b hb => h b (List.mem_cons_of_mem _ hb), List.map_cons]

/-- Bytes below 128 are characters of their own. -/
theorem Utf8.decode?_of_ascii {bytes : Bytes} (h : ∀ b ∈ bytes, b < 0x80) :
    decode? bytes = some (String.ofList (bytes.map fun b => Char.ofNat b.toNat)) := by
  have hchars : ∀ l : Bytes,
      (l.map fun b => Piece.char (Char.ofNat b.toNat)).mapM Piece.char? =
        some (l.map fun b => Char.ofNat b.toNat) := by
    intro l
    induction l with
    | nil => rfl
    | cons b rest ih => simp [ih, Piece.char?]
  unfold decode?
  rw [piecesInto_eq, pieces_of_ascii h, List.reverse_nil, List.nil_append, hchars]
  rfl

namespace Tar

/-- Bytes without a NUL stand before the first NUL. -/
theorem untilNul_append {w : Bytes} (hw : 0 ∉ w) (rest : Bytes) :
    untilNul (w ++ rest) = w ++ untilNul rest := by
  unfold untilNul
  refine List.takeWhile_append_of_pos fun b hb => ?_
  simp only [bne_iff_ne]
  rintro rfl
  exact hw hb

/-! ### Octal text -/

/-- The digit of an octal number. -/
def IsOctalDigit (b : UInt8) : Prop := 0x30 ≤ b ∧ b ≤ 0x37

/-- The number that octal digits spell. -/
def octalValue (digits : Bytes) : Nat := digits.foldl (fun n b => 8 * n + (b.toNat - 0x30)) 0

/-- The field spells a number in octal: there are digits with blanks around them, and what stands
behind a NUL does not count. -/
def IsOctal (field : Bytes) (n : Nat) : Prop :=
  ∃ front digits back rest : Bytes, field = front ++ digits ++ back ++ rest ∧
    (∀ b ∈ front ++ back, b = 0x20) ∧ digits ≠ [] ∧ (∀ b ∈ digits, IsOctalDigit b) ∧
    octalValue digits = n ∧ (rest = [] ∨ ∃ more, rest = 0 :: more)

/-- The character of an octal digit has the value of the digit, and it is neither a blank nor a
sign.
-/
theorem IsOctalDigit.char {b : UInt8} (h : IsOctalDigit b) :
    Text.digitValue 8 (Char.ofNat b.toNat) = some (b.toNat - 0x30) ∧
      Text.isBlank (Char.ofNat b.toNat) = false ∧ Char.ofNat b.toNat ≠ '+' := by
  have hall : ∀ k < 56, 48 ≤ k → Text.digitValue 8 (Char.ofNat k) = some (k - 48) ∧
      Text.isBlank (Char.ofNat k) = false ∧ Char.ofNat k ≠ '+' := by decide
  obtain ⟨hlow, hhigh⟩ := h
  exact hall b.toNat (Nat.lt_succ_of_le hhigh) hlow

/-- A number only grows by further digits. -/
theorem le_foldl_digits (digits : Bytes) (n : Nat) :
    n ≤ digits.foldl (fun n b => 8 * n + (b.toNat - 0x30)) n := by
  induction digits generalizing n with
  | nil => exact Nat.le_refl n
  | cons b rest ih =>
    have hstep : n ≤ 8 * n + (b.toNat - 0x30) := by omega
    exact Nat.le_trans hstep (ih _)

/-- Digits are read one by one, and if a word holds the whole number, it holds each one on the
way. -/
theorem readDigits_of_octal {digits : Bytes} (h : ∀ b ∈ digits, IsOctalDigit b) {n : Nat}
    (hlimit : digits.foldl (fun n b => 8 * n + (b.toNat - 0x30)) n < Text.wordLimit) :
    Text.readDigits 8 n (digits.map fun b => Char.ofNat b.toNat) =
      some (digits.foldl (fun n b => 8 * n + (b.toNat - 0x30)) n) := by
  induction digits generalizing n with
  | nil => rfl
  | cons b rest ih =>
    rw [List.foldl_cons] at hlimit ⊢
    rw [List.map_cons, Text.readDigits, (h b List.mem_cons_self).char.1]
    dsimp only
    rw [if_pos (Nat.lt_of_le_of_lt (le_foldl_digits rest _) hlimit)]
    exact ih (fun b hb => h b (List.mem_cons_of_mem _ hb)) hlimit

/-- Blanks around digits are trimmed. -/
theorem trimChars_of_blanks {front digits back : List Char} (hfront : ∀ c ∈ front, c = ' ')
    (hback : ∀ c ∈ back, c = ' ') (hdigits : ∀ c ∈ digits, Text.isBlank c = false)
    (hne : digits ≠ []) : Text.trimChars (front ++ digits ++ back) = digits := by
  have hdrop : ∀ {blanks l : List Char}, (∀ c ∈ blanks, c = ' ') → l ≠ [] →
      (∀ c ∈ l.head?, Text.isBlank c = false) → (blanks ++ l).dropWhile Text.isBlank = l := by
    intro blanks l hblanks hl hhead
    rw [List.dropWhile_append_of_pos fun c hc => by rw [hblanks c hc]; decide]
    obtain ⟨c, rest, rfl⟩ := List.exists_cons_of_ne_nil hl
    exact List.dropWhile_cons_of_neg (by simp [hhead c (by simp)])
  -- Trimming drops blanks in front, and then those in front of the reverse.
  unfold Text.trimChars
  rw [List.append_assoc, hdrop hfront (by simp [hne]), List.reverse_append, hdrop,
    List.reverse_reverse]
  · simpa using hback
  · simpa using hne
  · intro c hc
    exact hdigits c (List.mem_reverse.mp (List.mem_of_mem_head? hc))
  · intro c hc
    obtain ⟨d, rest, rfl⟩ := List.exists_cons_of_ne_nil hne
    obtain rfl : d = c := by simpa using hc
    exact hdigits d List.mem_cons_self

/-- What stands before the NUL of an octal field, as text. -/
theorem decode?_of_isOctal {bytes : Bytes} {n : Nat} (h : IsOctal bytes n) :
    ∃ front digits back : Bytes, Utf8.decode? (untilNul bytes) =
        some (String.ofList ((front ++ digits ++ back).map fun b => Char.ofNat b.toNat)) ∧
      (∀ b ∈ front ++ back, b = 0x20) ∧ digits ≠ [] ∧ (∀ b ∈ digits, IsOctalDigit b) ∧
      octalValue digits = n := by
  obtain ⟨front, digits, back, rest, rfl, hblank, hne, hdigits, hvalue, hrest⟩ := h
  refine ⟨front, digits, back, ?_, hblank, hne, hdigits, hvalue⟩
  -- Neither a digit nor a blank is a NUL, or beyond the bytes that are characters.
  have hall : ∀ b ∈ front ++ digits ++ back, b ≠ 0 ∧ b < 0x80 := by
    intro b hb
    by_cases hdigit : b ∈ digits
    · obtain ⟨hlow, hhigh⟩ := hdigits b hdigit
      have hlow : 48 ≤ b.toNat := hlow
      have hhigh : b.toNat ≤ 55 := hhigh
      refine ⟨?_, Nat.lt_of_le_of_lt hhigh (by decide)⟩
      rintro rfl
      exact absurd hlow (by decide)
    · have hspace : b = 0x20 := hblank b (by simpa [hdigit] using hb)
      rw [hspace]
      decide
  have huntil : untilNul (front ++ digits ++ back ++ rest) = front ++ digits ++ back := by
    rw [untilNul_append fun hmem => (hall 0 hmem).1 rfl]
    rcases hrest with rfl | ⟨more, rfl⟩ <;> simp [untilNul]
  rw [huntil, Utf8.decode?_of_ascii fun b hb => (hall b hb).2]

/-- An octal number is read. -/
theorem octal?_eq {bytes : Bytes} {n : Nat} (h : IsOctal bytes n) (hn : n < Text.wordLimit) :
    octal? bytes = some n := by
  obtain ⟨front, digits, back, hdecode, hblank, hne, hdigits, rfl⟩ := decode?_of_isOctal h
  have htrim : Text.trimChars ((front ++ digits ++ back).map fun b => Char.ofNat b.toNat) =
      digits.map fun b => Char.ofNat b.toNat := by
    rw [List.map_append, List.map_append]
    -- What stands around the digits is trimmed, for it is blank, and the digits are not.
    refine trimChars_of_blanks ?_ ?_ ?_ (by simpa using hne)
    · simp only [List.mem_map]
      rintro c ⟨b, hb, rfl⟩
      rw [hblank b (by simp [hb])]
      rfl
    · simp only [List.mem_map]
      rintro c ⟨b, hb, rfl⟩
      rw [hblank b (by simp [hb])]
      rfl
    · simp only [List.mem_map]
      rintro c ⟨b, hb, rfl⟩
      exact (hdigits b hb).char.2.1
  unfold octal?
  rw [hdecode, Option.bind_some, String.toList_ofList, htrim]
  obtain ⟨b, rest, rfl⟩ := List.exists_cons_of_ne_nil hne
  have hplus := (hdigits b List.mem_cons_self).char.2.2
  have hread := readDigits_of_octal hdigits hn
  unfold Text.readWord octalValue
  rw [← hread]
  -- A `+` in front would be skipped, but the first character is a digit.
  split
  · next heq =>
    rw [List.map_cons, List.cons.injEq] at heq
    exact absurd heq.1 hplus
  · rfl

/-- It is read without a fault. -/
theorem octal_eq {bytes : Bytes} {n : Nat} (h : IsOctal bytes n) (hn : n < Text.wordLimit)
    (what : NumberField) : octal bytes what = .ok n := by
  obtain ⟨front, digits, back, hdecode, -⟩ := decode?_of_isOctal h
  unfold octal
  rw [hdecode, octal?_eq h hn]

/-- The number in octal, with as many digits as are asked for. -/
def octalText : (width : Nat) → (n : Nat) → Bytes
  | 0, _ => []
  | width + 1, n => octalText width (n / 8) ++ [UInt8.ofNat (0x30 + n % 8)]

/-- The digits that are written are as many as asked for. -/
@[simp]
theorem length_octalText (width n : Nat) : (octalText width n).length = width := by
  induction width generalizing n with
  | zero => rfl
  | succ width ih => simp [octalText, ih]

/-- Their value is the number, up to what the digits have room for. -/
theorem octalValue_octalText (width n : Nat) :
    octalValue (octalText width n) = n % 8 ^ width := by
  induction width generalizing n with
  | zero => simp [octalText, octalValue, Nat.mod_one]
  | succ width ih =>
    have hdigit : (UInt8.ofNat (0x30 + n % 8)).toNat - 0x30 = n % 8 := by
      rw [UInt8.toNat_ofNat_of_lt' (by rw [UInt8.size]; omega)]
      omega
    have hvalue : octalValue (octalText (width + 1) n) =
        8 * octalValue (octalText width (n / 8)) + n % 8 := by
      unfold octalValue
      rw [octalText, List.foldl_append, List.foldl_cons, List.foldl_nil, hdigit]
    rw [hvalue, ih, Nat.pow_succ', Nat.mod_mul]
    omega

/-- Digits with a NUL behind them spell the number, if they are enough for it. -/
theorem isOctal_octalText {width n : Nat} (hwidth : 0 < width) (hn : n < 8 ^ width)
    (more : Bytes) :
    IsOctal (octalText width n ++ 0 :: more) n := by
  refine ⟨[], octalText width n, [], 0 :: more, by simp, by simp, ?_, ?_, ?_, Or.inr ⟨more, rfl⟩⟩
  · rw [← List.length_pos_iff, length_octalText]
    exact hwidth
  · -- Each digit is the remainder of a division by eight.
    clear hwidth hn
    induction width generalizing n with
    | zero => simp [octalText]
    | succ width ih =>
      intro b hb
      rw [octalText, List.mem_append, List.mem_singleton] at hb
      rcases hb with hb | rfl
      · exact ih b hb
      · have hall : ∀ k < 8, IsOctalDigit (UInt8.ofNat (0x30 + k)) := by
          unfold IsOctalDigit
          decide
        exact hall (n % 8) (Nat.mod_lt _ (by decide))
  · rw [octalValue_octalText, Nat.mod_eq_of_lt hn]

/-! ### Sizes -/

/-- The field spells a number in octal, or in base 256 with its high bit set. -/
def IsNumber (field : Bytes) (n : Nat) : Prop :=
  IsOctal field n ∨ ∃ bytes : Bytes, field = 0x80 :: 0 :: 0 :: 0 :: bytes ∧
    bytes.foldl (fun n b => 256 * n + b.toNat) 0 = n

/-- A number is read, octal or binary. -/
theorem number_eq {bytes : Bytes} {n : Nat} (h : IsNumber bytes n) (hn : n < Text.wordLimit)
    (what : NumberField) : number bytes what = .ok n := by
  rcases h with h | ⟨bytes, rfl, rfl⟩
  · -- Neither a blank nor a digit has the high bit set.
    have hhead : bytes.headD 0 &&& 0x80 = 0 := by
      obtain ⟨front, digits, back, rest, rfl, hblank, hne, hdigits, -⟩ := h
      cases front with
      | cons b more =>
        have hb : b = 0x20 := hblank b (by simp)
        have hlow : (0x20 : UInt8) &&& 0x80 = 0 := by decide
        simp [hb, hlow]
      | nil =>
        obtain ⟨b, more, rfl⟩ := List.exists_cons_of_ne_nil hne
        have hall : ∀ k < 56, 48 ≤ k → UInt8.ofNat k &&& 0x80 = 0 := by decide
        obtain ⟨hlow, hhigh⟩ := hdigits b List.mem_cons_self
        have hb := hall b.toNat (Nat.lt_succ_of_le hhigh) hlow
        rw [UInt8.ofNat_toNat] at hb
        simpa using hb
    unfold number
    rw [hhead]
    exact octal_eq h hn what
  · unfold number
    rw [List.headD_cons, if_pos (by decide)]
    rfl

end Tar
end ImageBuild
