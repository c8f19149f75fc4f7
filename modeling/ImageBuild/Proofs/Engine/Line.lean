import ImageBuild.Engine.Output
import ImageBuild.Proofs.Progress.Message
import ImageBuild.Proofs.Text.JsonReading

/-!
# `ImageBuild.Proofs.Engine.Line`: what one line of a solver program says

`Says` is told from the characters of the line: a line is blank, or it is the JSON text
(`Json.Denotes`) of a status, of the end of the solve or of an error (`Progress.IsMessage`), or it
is none of these. `meaningOfText_eq_iff` is that the engine takes each line for what it says.
-/

set_option autoImplicit false

namespace ImageBuild.Engine

open Progress (EngineMessage IsMessage)

/-- Nothing but blank characters. -/
def IsBlankLine (line : String) : Prop := ∀ c ∈ line.toList, Text.isBlank c = true

/-- The line is the text of this message. -/
def IsMessageLine (line : String) (m : EngineMessage) : Prop :=
  ∃ v, Json.Denotes line v ∧ IsMessage v m

/-- What a line says. -/
inductive Says (line : String) : LineMeaning → Prop
  | blank : IsBlankLine line → Says line .blank
  | status {batch : Progress.StatusResponse} : IsMessageLine line (.status batch) →
    Says line (.status batch)
  | done : IsMessageLine line .done → Says line (.terminal .done)
  | failed {text : String} : IsMessageLine line (.error text) →
    Says line (.terminal (.failed text))
  | malformed : ¬ IsBlankLine line → (∀ m, ¬ IsMessageLine line m) →
    Says line (.terminal .malformed)

/-- A text is empty once its ends are trimmed exactly if all of it is blank. -/
theorem isEmpty_trim_iff (line : String) : (Text.trim line).isEmpty = true ↔
    IsBlankLine line := by
  unfold Text.trim Text.trimChars IsBlankLine
  rw [String.isEmpty_iff, String.ofList_eq_empty_iff, List.reverse_eq_nil_iff,
    List.dropWhile_eq_nil_iff]
  constructor
  · intro h
    -- What is left after the front is trimmed would start with a character that is not blank.
    by_contra hnot
    have hne : line.toList.dropWhile Text.isBlank ≠ [] := mt List.dropWhile_eq_nil_iff.mp hnot
    have hhead := h _ (List.mem_reverse.mpr (List.head_mem hne))
    rw [List.head_dropWhile_not Text.isBlank hne] at hhead
    cases hhead
  · intro h
    rw [List.dropWhile_eq_nil_iff.mpr h]
    simp

/-- A line is read as a message exactly if it is the text of one. -/
theorem ofLine?_eq_some_iff (line : String) (m : EngineMessage) :
    EngineMessage.ofLine? line = some m ↔ IsMessageLine line m := by
  unfold EngineMessage.ofLine? IsMessageLine
  rw [Option.bind_eq_some_iff]
  exact exists_congr fun v =>
    and_congr (Json.read?_eq_some_iff line v) (EngineMessage.ofJson?_eq_some_iff v m)

/-- The text of an object has an opening brace. -/
theorem brace_mem_of_denotes {line : String} {fields : List (Option String × Json)}
    (h : Json.Denotes line (.obj fields)) : '{' ∈ line.toList := by
  obtain ⟨before, cs, behind, hline, -, hcs, -⟩ := h
  have hbrace : '{' ∈ cs := by
    cases hcs with
    | emptyObject | object => simp
    | number hnumber => cases hnumber
  rw [hline]
  exact List.mem_append_left _ (List.mem_append_right _ hbrace)

/-- The text of a message is not blank. -/
theorem not_isBlankLine {line : String} {m : EngineMessage} (h : IsMessageLine line m) :
    ¬ IsBlankLine line := by
  obtain ⟨v, hv, hm⟩ := h
  intro hblank
  have hbrace : '{' ∈ line.toList := by
    cases hm with
    | status | done | error => exact brace_mem_of_denotes hv
  exact absurd (hblank '{' hbrace) (by decide)

/-- The engine takes a line for what it says. -/
theorem meaningOfText_eq_iff (line : String) (x : LineMeaning) :
    meaningOfText line = x ↔ Says line x := by
  unfold meaningOfText
  -- Blanks come first: such a line is skipped before anything reads it.
  by_cases hblank : IsBlankLine line
  · rw [if_pos ((isEmpty_trim_iff line).mpr hblank)]
    constructor
    · rintro rfl
      exact .blank hblank
    · intro h
      cases h with
      | blank => rfl
      | status hm | done hm | failed hm => exact absurd hblank (not_isBlankLine hm)
      | malformed hnot => exact absurd hblank hnot
  · rw [if_neg (mt (isEmpty_trim_iff line).mp hblank)]
    constructor
    · rintro rfl
      cases hread : EngineMessage.ofLine? line with
      | none =>
        refine .malformed hblank fun m hm => ?_
        rw [(ofLine?_eq_some_iff line m).mpr hm] at hread
        cases hread
      | some m =>
        have hm := (ofLine?_eq_some_iff line m).mp hread
        cases m with
        | status batch => exact .status hm
        | done => exact .done hm
        | error text => exact .failed hm
    · intro h
      cases h with
      | blank hall => exact absurd hall hblank
      | status hm | done hm | failed hm => rw [(ofLine?_eq_some_iff _ _).mpr hm]
      | malformed _ hnone =>
        cases hread : EngineMessage.ofLine? line with
        | none => rfl
        | some m => exact absurd ((ofLine?_eq_some_iff line m).mp hread) (hnone m)

/-- A line says one thing. -/
theorem Says.unique {line : String} {x y : LineMeaning} (hx : Says line x) (hy : Says line y) :
    x = y :=
  ((meaningOfText_eq_iff line x).mpr hx).symm.trans ((meaningOfText_eq_iff line y).mpr hy)

end ImageBuild.Engine
