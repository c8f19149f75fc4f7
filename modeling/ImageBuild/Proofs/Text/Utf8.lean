import ImageBuild.Text.Utf8Fault

/-!
# `ImageBuild.Proofs.Text.Utf8`: text survives its encoding

A text is read back from its bytes (`decode?_encode`), and there is no fault in them
(`fault?_encode`). Both come from `pieces_encode`: what is encoded is cut into its characters and
nothing else. One character is one piece whatever bytes follow it (`headPiece_encodeChar`), so the
induction is on the characters.

The other way round, a piece that is a character has the bytes of the character
(`encodeChar_of_headPiece`): the narrow ranges of the second byte leave one way to write each
character. So a text is read only from its own bytes (`decode?_eq_some_iff`).

A byte below 0x80 in the encoding is a character of its own (`encodeChar_of_ascii_mem`). That is
why line breaks can be looked for among the bytes.
-/

set_option autoImplicit false

namespace ImageBuild.Utf8

/-! ### Sequences by the values of their bytes -/

section
variable {lead b c d : UInt8}

/-- How many bytes a sequence has, by the value of its leading byte. -/
theorem sequenceLength_eq (lead : UInt8) :
    sequenceLength lead =
      if lead.toNat < 0x80 then 1
      else if lead.toNat < 0xC2 then 0
      else if lead.toNat < 0xE0 then 2
      else if lead.toNat < 0xF0 then 3
      else if lead.toNat < 0xF5 then 4
      else 0 := by
  simp [sequenceLength, UInt8.lt_iff_toNat_lt]

/-- A byte that continues a sequence, by its value. -/
def Continues (b : UInt8) : Prop := 0x80 ≤ b.toNat ∧ b.toNat ≤ 0xBF

/-- A byte that may follow passes the test. -/
theorem Continues.isContinuation (h : Continues b) : isContinuation b = true := by
  simpa [Utf8.isContinuation, UInt8.le_iff_toNat_le, Continues] using h

/-- A byte that passes the test may follow. -/
theorem continues_of_isContinuation (h : isContinuation b = true) : Continues b := by
  simpa [Utf8.isContinuation, UInt8.le_iff_toNat_le, Continues] using h

/-- A byte that may follow a leading byte: behind four of them the range is narrower. -/
structure Follows (lead b : UInt8) : Prop where
  continues : Continues b
  overlong₃ : lead.toNat = 0xE0 → 0xA0 ≤ b.toNat
  surrogate : lead.toNat = 0xED → b.toNat ≤ 0x9F
  overlong₄ : lead.toNat = 0xF0 → 0x90 ≤ b.toNat
  beyond : lead.toNat = 0xF4 → b.toNat ≤ 0x8F

/-- A second byte that is allowed is in the range of its lead. -/
theorem Follows.fits (h : Follows lead b) :
    (decide ((secondRange lead).1 ≤ b) && decide (b ≤ (secondRange lead).2)) = true := by
  obtain ⟨⟨hlow, hhigh⟩, hE0, hED, hF0, hF4⟩ := h
  simp only [secondRange, beq_iff_eq, ← UInt8.toNat_inj, Bool.and_eq_true, decide_eq_true_eq,
    UInt8.le_iff_toNat_le]
  split
  · next h => exact ⟨hE0 h, hhigh⟩
  · split
    · next h => exact ⟨hlow, hED h⟩
    · split
      · next h => exact ⟨hF0 h, hhigh⟩
      · split
        · next h => exact ⟨hlow, hF4 h⟩
        · exact ⟨hlow, hhigh⟩

/-- A byte in the range is allowed. -/
theorem follows_of_fits
    (h : (decide ((secondRange lead).1 ≤ b) && decide (b ≤ (secondRange lead).2)) = true) :
    Follows lead b := by
  simp only [secondRange, beq_iff_eq, ← UInt8.toNat_inj, Bool.and_eq_true, decide_eq_true_eq,
    UInt8.le_iff_toNat_le, UInt8.reduceToNat, apply_ite Prod.fst, apply_ite Prod.snd,
    apply_ite UInt8.toNat] at h
  constructor
  · constructor <;> grind
  all_goals grind

/-- One byte is a character by itself. -/
theorem headPiece_one (hlead : lead.toNat < 0x80) (rest : Bytes) :
    headPiece lead rest = (.char (Char.ofNat lead.toNat), 0) := by
  have hlength : sequenceLength lead = 1 := by
    rw [sequenceLength_eq, if_pos hlead]
  simp only [headPiece, hlength]

/-- Two bytes make a character. -/
theorem headPiece_two (hlow : 0xC2 ≤ lead.toNat) (hhigh : lead.toNat < 0xE0) (hb : Follows lead b)
    (rest : Bytes) :
    headPiece lead (b :: rest) = (.char (Char.ofNat (lead.toNat % 32 * 64 + payload b)), 1) := by
  have hlength : sequenceLength lead = 2 := by
    rw [sequenceLength_eq, if_neg (by omega), if_neg (by omega), if_pos hhigh]
  simp only [headPiece, hlength, hb.fits, if_true]

/-- Three bytes make a character. -/
theorem headPiece_three (hlow : 0xE0 ≤ lead.toNat) (hhigh : lead.toNat < 0xF0)
    (hb : Follows lead b) (hc : Continues c) (rest : Bytes) :
    headPiece lead (b :: c :: rest) =
      (.char (Char.ofNat (lead.toNat % 16 * 4096 + payload b * 64 + payload c)), 2) := by
  have hlength : sequenceLength lead = 3 := by
    rw [sequenceLength_eq, if_neg (by omega), if_neg (by omega), if_neg (by omega), if_pos hhigh]
  simp only [headPiece, hlength, hb.fits, hc.isContinuation, Bool.not_true, Bool.false_eq_true,
    if_false]

/-- Four bytes make a character. -/
theorem headPiece_four (hlow : 0xF0 ≤ lead.toNat) (hhigh : lead.toNat < 0xF5)
    (hb : Follows lead b) (hc : Continues c) (hd : Continues d) (rest : Bytes) :
    headPiece lead (b :: c :: d :: rest) =
      (.char (Char.ofNat
        (lead.toNat % 8 * 262144 + payload b * 4096 + payload c * 64 + payload d)), 3) := by
  have hlength : sequenceLength lead = 4 := by
    rw [sequenceLength_eq, if_neg (by omega), if_neg (by omega), if_neg (by omega),
      if_neg (by omega),
      if_pos hhigh]
  simp only [headPiece, hlength, hb.fits, hc.isContinuation, hd.isContinuation, Bool.not_true,
    Bool.false_eq_true, if_false]

end

/-! ### Characters -/

/-- Six bits as they stand in a byte that continues a sequence. -/
theorem continues_ofNat {n : Nat} (h : n < 64) :
    Continues (UInt8.ofNat (n + 128)) ∧ payload (UInt8.ofNat (n + 128)) = n := by
  unfold Continues payload
  rw [UInt8.toNat_ofNat_of_lt' (show _ < 256 by omega)]
  omega

/-- The bytes of a character, by its number. -/
theorem encodeChar_eq (c : Char) :
    String.utf8EncodeChar c =
      if c.toNat ≤ 127 then [UInt8.ofNat c.toNat]
      else if c.toNat ≤ 2047 then
        [UInt8.ofNat (c.toNat / 64 % 32 + 192), UInt8.ofNat (c.toNat % 64 + 128)]
      else if c.toNat ≤ 65535 then
        [UInt8.ofNat (c.toNat / 4096 % 16 + 224), UInt8.ofNat (c.toNat / 64 % 64 + 128),
          UInt8.ofNat (c.toNat % 64 + 128)]
      else
        [UInt8.ofNat (c.toNat / 262144 % 8 + 240), UInt8.ofNat (c.toNat / 4096 % 64 + 128),
          UInt8.ofNat (c.toNat / 64 % 64 + 128), UInt8.ofNat (c.toNat % 64 + 128)] := rfl

/-- What one character is encoded as is one piece, whatever comes behind it. -/
theorem headPiece_encodeChar (c : Char) (rest : Bytes) :
    ∃ lead tail, String.utf8EncodeChar c = lead :: tail ∧
      headPiece lead (tail ++ rest) = (.char c, tail.length) := by
  have hvalid : c.toNat < 0xD800 ∨ 0xDFFF < c.toNat ∧ c.toNat < 0x110000 := c.valid
  have hback : ∀ {n : Nat}, n = c.toNat → Char.ofNat n = c := fun hn => hn ▸ Char.ofNat_toNat c
  obtain ⟨hb, hb'⟩ := continues_ofNat (n := c.toNat / 4096 % 64) (by omega)
  obtain ⟨hc, hc'⟩ := continues_ofNat (n := c.toNat / 64 % 64) (by omega)
  obtain ⟨hd, hd'⟩ := continues_ofNat (n := c.toNat % 64) (by omega)
  have hvalue : ∀ {n : Nat}, n < 64 → (UInt8.ofNat (n + 128)).toNat = n + 128 :=
    fun h => UInt8.toNat_ofNat_of_lt' (show _ < 256 by omega)
  rw [encodeChar_eq]
  -- The ranges of the second byte come from the range of the character in each case.
  split
  · have hlead : (UInt8.ofNat c.toNat).toNat = c.toNat :=
      UInt8.toNat_ofNat_of_lt' (show _ < 256 by omega)
    refine ⟨_, [], rfl, ?_⟩
    rw [headPiece_one (by omega), hback hlead]
    rfl
  · split
    · have hlead : (UInt8.ofNat (c.toNat / 64 % 32 + 192)).toNat = c.toNat / 64 % 32 + 192 :=
        UInt8.toNat_ofNat_of_lt' (show _ < 256 by omega)
      have hfollows : Follows (UInt8.ofNat (c.toNat / 64 % 32 + 192))
          (UInt8.ofNat (c.toNat % 64 + 128)) := by
        constructor <;> first | exact hd | omega
      refine ⟨_, [_], rfl, ?_⟩
      rw [List.singleton_append, headPiece_two (by omega) (by omega) hfollows, hd',
        hback (by omega)]
      rfl
    · split
      · have hlead : (UInt8.ofNat (c.toNat / 4096 % 16 + 224)).toNat =
            c.toNat / 4096 % 16 + 224 :=
          UInt8.toNat_ofNat_of_lt' (show _ < 256 by omega)
        have hsecond := hvalue (n := c.toNat / 64 % 64) (by omega)
        have hfollows : Follows (UInt8.ofNat (c.toNat / 4096 % 16 + 224))
            (UInt8.ofNat (c.toNat / 64 % 64 + 128)) := by
          constructor <;> first | exact hc | omega
        refine ⟨_, [_, _], rfl, ?_⟩
        rw [List.cons_append, List.singleton_append, headPiece_three (by omega)
          (by omega) hfollows hd, hc',
          hd', hback (by omega)]
        rfl
      · have hlead : (UInt8.ofNat (c.toNat / 262144 % 8 + 240)).toNat =
            c.toNat / 262144 % 8 + 240 :=
          UInt8.toNat_ofNat_of_lt' (show _ < 256 by omega)
        have hsecond := hvalue (n := c.toNat / 4096 % 64) (by omega)
        have hfollows : Follows (UInt8.ofNat (c.toNat / 262144 % 8 + 240))
            (UInt8.ofNat (c.toNat / 4096 % 64 + 128)) := by
          constructor <;> first | exact hb | omega
        refine ⟨_, [_, _, _], rfl, ?_⟩
        rw [List.cons_append, List.cons_append, List.singleton_append,
          headPiece_four (by omega) (by omega) hfollows hc hd, hb', hc', hd', hback (by omega)]
        rfl

section
variable {lead b c d : UInt8}

/-- A number that is no surrogate is a character. -/
theorem toNat_charOfNat {n : Nat} (h : n < 0xD800 ∨ 0xDFFF < n ∧ n < 0x110000) :
    (Char.ofNat n).toNat = n := by
  have hvalid : n.isValidChar := h
  unfold Char.ofNat
  rw [dif_pos hvalid]
  rfl

/-- A byte is the one with its number. -/
theorem ofNat_eq_of_toNat {n : Nat} (h : b.toNat = n) : UInt8.ofNat n = b := by
  rw [← h, UInt8.ofNat_toNat]

/-- The character of one byte is written as this byte. -/
theorem encodeChar_one (hlead : lead.toNat < 0x80) :
    String.utf8EncodeChar (Char.ofNat lead.toNat) = [lead] := by
  rw [encodeChar_eq, toNat_charOfNat (by omega), if_pos (by omega), ofNat_eq_of_toNat rfl]

/-- The character of two bytes is written as these. -/
theorem encodeChar_two (hlow : 0xC2 ≤ lead.toNat) (hhigh : lead.toNat < 0xE0)
    (hb : Follows lead b) :
    String.utf8EncodeChar (Char.ofNat (lead.toNat % 32 * 64 + payload b)) = [lead, b] := by
  obtain ⟨⟨hblow, hbhigh⟩, -⟩ := hb
  unfold payload
  rw [encodeChar_eq, toNat_charOfNat (by omega), if_neg (by omega), if_pos (by omega),
    ofNat_eq_of_toNat (b := lead) (by omega), ofNat_eq_of_toNat (b := b) (by omega)]

/-- The character of three bytes is written as these. -/
theorem encodeChar_three (hlow : 0xE0 ≤ lead.toNat) (hhigh : lead.toNat < 0xF0)
    (hb : Follows lead b) (hc : Continues c) :
    String.utf8EncodeChar (Char.ofNat (lead.toNat % 16 * 4096 + payload b * 64 + payload c)) =
      [lead, b, c] := by
  obtain ⟨⟨hblow, hbhigh⟩, hE0, hED, -⟩ := hb
  obtain ⟨hclow, hchigh⟩ := hc
  unfold payload
  rw [encodeChar_eq, toNat_charOfNat (by omega), if_neg (by omega), if_neg (by omega),
    if_pos (by omega),
    ofNat_eq_of_toNat (b := lead) (by omega), ofNat_eq_of_toNat (b := b) (by omega),
    ofNat_eq_of_toNat (b := c) (by omega)]

/-- The character of four bytes is written as these. -/
theorem encodeChar_four (hlow : 0xF0 ≤ lead.toNat) (hhigh : lead.toNat < 0xF5)
    (hb : Follows lead b) (hc : Continues c) (hd : Continues d) :
    String.utf8EncodeChar (Char.ofNat
      (lead.toNat % 8 * 262144 + payload b * 4096 + payload c * 64 + payload d)) =
        [lead, b, c, d] := by
  obtain ⟨⟨hblow, hbhigh⟩, -, -, hF0, hF4⟩ := hb
  obtain ⟨hclow, hchigh⟩ := hc
  obtain ⟨hdlow, hdhigh⟩ := hd
  unfold payload
  rw [encodeChar_eq, toNat_charOfNat (by omega), if_neg (by omega), if_neg (by omega),
    if_neg (by omega),
    ofNat_eq_of_toNat (b := lead) (by omega), ofNat_eq_of_toNat (b := b) (by omega),
    ofNat_eq_of_toNat (b := c) (by omega), ofNat_eq_of_toNat (b := d) (by omega)]

/-- A piece that is a character is made of the bytes the character is encoded as. -/
theorem encodeChar_of_headPiece {rest : Bytes} {char : Char} {n : Nat}
    (h : headPiece lead rest = (.char char, n)) :
    String.utf8EncodeChar char = lead :: rest.take n := by
  have hlength := sequenceLength_eq lead
  unfold headPiece at h
  dsimp only at h
  -- One case for each length of a sequence. The exits with an ill-formed stretch contradict `h`.
  split at h
  · next hone =>
    have hlead : lead.toNat < 0x80 := by grind
    cases h
    exact encodeChar_one hlead
  · next htwo =>
    have hlead : 0xC2 ≤ lead.toNat ∧ lead.toNat < 0xE0 := by grind
    split at h
    · split at h
      · next hfits =>
        cases h
        exact encodeChar_two hlead.1 hlead.2 (follows_of_fits hfits)
      · cases h
    · cases h
  · next hthree =>
    have hlead : 0xE0 ≤ lead.toNat ∧ lead.toNat < 0xF0 := by grind
    split at h
    · split at h
      · cases h
      · split at h
        · cases h
        · next hfits hc =>
          cases h
          exact encodeChar_three hlead.1 hlead.2 (follows_of_fits (by simpa using hfits))
            (continues_of_isContinuation (by simpa using hc))
    · split at h <;> cases h
    · cases h
  · next hfour =>
    have hlead : 0xF0 ≤ lead.toNat ∧ lead.toNat < 0xF5 := by grind
    split at h
    · split at h
      · cases h
      · split at h
        · cases h
        · split at h
          · cases h
          · next hfits hc hd =>
            cases h
            exact encodeChar_four hlead.1 hlead.2 (follows_of_fits (by simpa using hfits))
              (continues_of_isContinuation (by simpa using hc))
              (continues_of_isContinuation (by simpa using hd))
    · split at h
      · cases h
      · split at h <;> cases h
    · split at h <;> cases h
    · cases h
  · cases h

end

/-- A byte below 0x80 is encoded for a character of its own. -/
theorem encodeChar_of_ascii_mem {c : Char} {b : UInt8} (hmem : b ∈ String.utf8EncodeChar c)
    (hb : b.toNat < 0x80) : c = Char.ofNat b.toNat ∧ String.utf8EncodeChar c = [b] := by
  have hlarge : ∀ {n : Nat}, 128 ≤ n → n < 256 → b ≠ UInt8.ofNat n := by
    rintro n hlow hhigh rfl
    rw [UInt8.toNat_ofNat_of_lt' hhigh] at hb
    omega
  rw [encodeChar_eq] at hmem ⊢
  split at hmem
  · next hone =>
    obtain rfl := List.mem_singleton.mp hmem
    rw [if_pos hone, UInt8.toNat_ofNat_of_lt' (show _ < 256 by omega), Char.ofNat_toNat]
    exact ⟨rfl, rfl⟩
  · -- The bytes of a longer sequence all have their highest bit set.
    exfalso
    split at hmem
    · simp only [List.mem_cons, List.not_mem_nil, or_false] at hmem
      rcases hmem with hmem | hmem <;> exact hlarge (by omega) (by omega) hmem
    · split at hmem
      · simp only [List.mem_cons, List.not_mem_nil, or_false] at hmem
        rcases hmem with hmem | hmem | hmem <;> exact hlarge (by omega) (by omega) hmem
      · simp only [List.mem_cons, List.not_mem_nil, or_false] at hmem
        rcases hmem with hmem | hmem | hmem | hmem <;> exact hlarge (by omega) (by omega) hmem

/-! ### Texts -/

/-- Only the empty text has no bytes. -/
theorem encode_eq_nil_iff (s : String) : encode s = [] ↔ s = "" := by
  rw [← String.toList_eq_nil_iff]
  unfold encode
  cases s.toList with
  | nil => simp
  | cons c rest =>
    obtain ⟨lead, tail, hencode, -⟩ := headPiece_encodeChar c []
    simp [hencode]

/-- A byte below 0x80 in the encoding of a text is there for a character of the text. -/
theorem char_mem_of_mem_encode {b : UInt8} {s : String} (hmem : b ∈ encode s)
    (hb : b.toNat < 0x80) :
    Char.ofNat b.toNat ∈ s.toList := by
  obtain ⟨c, hc, hmem⟩ := List.mem_flatMap.mp hmem
  rwa [← (encodeChar_of_ascii_mem hmem hb).1]

/-- What is encoded is cut into its characters. -/
theorem pieces_encode (s : String) : pieces (encode s) = s.toList.map .char := by
  unfold encode
  induction s.toList with
  | nil => rw [List.flatMap_nil, pieces]; rfl
  | cons c rest ih =>
    obtain ⟨lead, tail, hencode, hhead⟩ :=
      headPiece_encodeChar c (rest.flatMap String.utf8EncodeChar)
    rw [List.flatMap_cons, hencode, List.cons_append, pieces, hhead]
    dsimp only
    rw [List.drop_left, ih, List.map_cons]

/-- Characters are pieces that are characters. -/
theorem mapM_char? (cs : List Char) : (cs.map Piece.char).mapM Piece.char? = some cs := by
  induction cs with
  | nil => rfl
  | cons c rest ih => simp [ih, Piece.char?]

/-- Pieces that are all characters are those of these characters. -/
theorem eq_map_of_mapM_char? {ps : List Piece} {cs : List Char}
    (h : ps.mapM Piece.char? = some cs) :
    ps = cs.map .char := by
  induction ps generalizing cs with
  | nil => cases h; rfl
  | cons p rest ih =>
    cases p with
    | invalid n => simp [Piece.char?] at h
    | char c =>
      simp only [List.mapM_cons, Piece.char?, Option.pure_def, Option.bind_eq_bind,
        Option.bind_some,
        Option.bind_eq_some_iff] at h
      obtain ⟨more, hmore, h⟩ := h
      cases h
      rw [ih hmore, List.map_cons]

/-- Bytes that are cut into characters only are what the characters are encoded as. -/
theorem eq_flatMap_of_pieces {bytes : Bytes} {cs : List Char} (h : pieces bytes = cs.map .char) :
    bytes = cs.flatMap String.utf8EncodeChar := by
  fun_induction pieces bytes generalizing cs with
  | case1 =>
    rw [eq_comm, List.map_eq_nil_iff] at h
    rw [h, List.flatMap_nil]
  | case2 lead rest head =>
    next ih =>
    cases cs with
    | nil => cases h
    | cons c more =>
      obtain ⟨hhead, htail⟩ := List.cons.inj h
      rw [List.flatMap_cons, ← ih htail, encodeChar_of_headPiece (Prod.ext hhead rfl),
        List.cons_append,
        List.take_append_drop]

/-- A text is read back from its bytes. -/
theorem decode?_encode (s : String) : decode? (encode s) = some s := by
  unfold decode?
  rw [piecesInto_eq, pieces_encode, List.reverse_nil, List.nil_append, mapM_char?]
  exact congrArg some (String.ofList_toList)

/-- Bytes are read as a text if they are those of the text. -/
theorem decode?_eq_some_iff {bytes : Bytes} {s : String} :
    decode? bytes = some s ↔ bytes = encode s := by
  constructor
  · intro h
    unfold decode? at h
    rw [piecesInto_eq, List.reverse_nil, List.nil_append] at h
    obtain ⟨cs, hcs, rfl⟩ := Option.map_eq_some_iff.mp h
    rw [eq_flatMap_of_pieces (eq_map_of_mapM_char? hcs), encode, String.toList_ofList]
  · rintro rfl
    exact decode?_encode s

/-- Bytes are well-formed text if they are those of some text. -/
theorem isValid_iff {bytes : Bytes} : isValid bytes = true ↔ ∃ s, bytes = encode s := by
  unfold isValid
  rw [Option.isSome_iff_exists]
  exact exists_congr fun s => decode?_eq_some_iff

/-- A text is shown as it is. -/
theorem decodeLossy_encode (s : String) : decodeLossy (encode s) = s := by
  have hshown : Piece.shown ∘ Piece.char = id := rfl
  unfold decodeLossy
  rw [piecesInto_eq, pieces_encode, List.reverse_nil, List.nil_append, List.map_map, hshown,
    List.map_id]
  exact String.ofList_toList

/-- There is no fault in what is encoded. -/
theorem fault?_encode (s : String) : fault? (encode s) = none := by
  have hnone : faultAmong 0 (s.toList.map .char) = none :=
    (faultAmong_eq_none_iff 0 _).mpr ⟨_, mapM_char? s.toList⟩
  unfold fault?
  rw [piecesInto_eq, pieces_encode, List.reverse_nil, List.nil_append, hnone]
  rfl

end ImageBuild.Utf8
