import ImageBuild.Text.Utf8

/-!
# `ImageBuild.Text.Utf8Fault`: where bytes stop being text

The first ill-formed stretch of a byte list: where it starts and how long it is. A beginning of a
sequence that the end of the bytes cuts off has no length, for the rest may be yet to come.
-/

set_option autoImplicit false

namespace ImageBuild.Utf8

/-- An ill-formed stretch. -/
structure Fault where
  /-- How many bytes are before it. -/
  index : Nat
  /-- How long it is, unless the end of the bytes cuts it off. -/
  length : Option Nat
  deriving DecidableEq, Repr

namespace Fault

/-- The fault in words. -/
def message (f : Fault) : String :=
  match f.length with
  | some n => s!"invalid utf-8 sequence of {n} bytes from index {f.index}"
  | none => s!"incomplete utf-8 byte sequence from index {f.index}"

end Fault

/-- How many bytes a piece has. -/
def Piece.size : Piece → Nat
  | .char c => c.utf8Size
  | .invalid n => n

/-- The first ill-formed stretch among pieces, given how many bytes come before them. -/
def faultAmong (index : Nat) : List Piece → Option (Nat × Nat × Bool)
  | [] => none
  | .char c :: rest => faultAmong (index + c.utf8Size) rest
  | .invalid n :: rest => some (index, n, rest.isEmpty)

/-- The first ill-formed stretch. -/
def fault? (bytes : Bytes) : Option Fault :=
  (faultAmong 0 (piecesInto [] bytes)).map fun (index, n, last) =>
    ⟨index, if last && 2 ≤ sequenceLength (bytes.getD index 0) then none else some n⟩

/-- What is no text has an ill-formed stretch, and only that. -/
theorem faultAmong_eq_none_iff (index : Nat) (ps : List Piece) :
    faultAmong index ps = none ↔ ∃ cs, ps.mapM Piece.char? = some cs := by
  induction ps generalizing index with
  | nil => simp [faultAmong]
  | cons p rest ih =>
    cases p with
    | char c =>
      rw [faultAmong, ih]
      constructor
      · rintro ⟨cs, h⟩
        exact ⟨c :: cs, by simp [List.mapM_cons, Piece.char?, h]⟩
      · rintro ⟨cs, h⟩
        simp only [List.mapM_cons, Piece.char?, Option.bind_eq_bind, Option.bind_some,
          Option.bind_eq_some_iff] at h
        obtain ⟨tail, ht, _⟩ := h
        exact ⟨tail, ht⟩
    | invalid n => simp [faultAmong, List.mapM_cons, Piece.char?]

end ImageBuild.Utf8
