import ImageBuild.Engine.Program
import ImageBuild.Proofs.Engine.Line
import ImageBuild.Proofs.Solve.Scripted
import ImageBuild.Proofs.Text.Utf8
import Mathlib.Data.List.Forall2

/-!
# `ImageBuild.Proofs.Engine.Output`: output counts up to its first terminal line

The output of a solver program is text in lines (`OutputText`). What a line `Says` is told in
`Proofs/Engine/Line` from its characters. `EndsAt` says of some lines which come before the first
terminal one, and what that one says, and `Brings` which batches lines bring. Both look at all
lines at once, while `readLines` goes through them one by one.

* `readOutput_bytes`: what is read of the bytes is what the lines before the first terminal one
  bring, and what that one says.
* `solve_endsAt_firstTerminal`: the engine sends these batches and returns as the terminal line
  says. What comes behind it does not matter, and no more does how the program exits after it said
  that it is done.

An engine returns after the program has exited where it waits for it. A program may hang instead,
also because it waits for somebody to read the rest of its output, and `Behaviour.exit` is `none`
then.
-/

set_option autoImplicit false

namespace ImageBuild.Engine

open Progress (StatusResponse)
open Solve (EngineScript Script Stage)

/-! ### Lines of text -/

/-- A line without the `\r` that may stand before its line break. -/
def withoutReturn (line : String) : String :=
  if line.toList.getLast? = some '\r' then String.ofList line.toList.dropLast else line

/-- An output that is text: the lines that end with a line break, and what comes behind the last
of these. -/
structure OutputText where
  ended : List String
  rest : String
  ended_noBreak : ∀ line ∈ ended, '\n' ∉ line.toList
  rest_noBreak : '\n' ∉ rest.toList

namespace OutputText

/-- What the program writes. -/
def bytes (o : OutputText) : Bytes :=
  (o.ended.map fun line => Utf8.encode line ++ [lineBreak]).flatten ++ Utf8.encode o.rest

/-- The lines in order. The last one may be without a line break. -/
def lines (o : OutputText) : List String :=
  o.ended.map withoutReturn ++ if o.rest.isEmpty then [] else [o.rest]

end OutputText

/-- A line break in the bytes of a text is one in the text. -/
theorem lineBreak_notMem {line : String} (h : '\n' ∉ line.toList) :
    lineBreak ∉ Utf8.encode line :=
  fun hmem => h (Utf8.char_mem_of_mem_encode hmem (by decide))

/-- A line loses its break, and the carriage return before it. -/
theorem withoutEnd_concat (line : Bytes) :
    withoutEnd (line ++ [lineBreak]) =
      if line.getLast? = some carriageReturn then line.dropLast else line := by
  rcases List.eq_nil_or_concat line with rfl | ⟨front, last, rfl⟩
  · rfl
  · rw [List.concat_eq_append]
    unfold withoutEnd
    rw [List.reverse_append, List.reverse_append]
    by_cases hlast : last = carriageReturn
    · simp [hlast]
    · simp [hlast]

/-- A line without a break is left as it is. -/
theorem withoutEnd_of_notMem {line : Bytes} (h : lineBreak ∉ line) : withoutEnd line = line := by
  have hlast : ∀ b ∈ line.reverse, (b == lineBreak) = false := by
    intro b hb
    rw [beq_eq_false_iff_ne]
    rintro rfl
    exact h (List.mem_reverse.mp hb)
  unfold withoutEnd
  split
  · next b c rest heq =>
    rw [hlast b (by simp [heq])]
    rfl
  · next b heq =>
    rw [hlast b (by simp [heq])]
    rfl
  · next heq =>
    exact (List.reverse_eq_nil_iff.mp heq).symm

/-- The byte before the line break is a `\r` exactly if the last character is one. -/
theorem withoutEnd_encode (line : String) :
    withoutEnd (Utf8.encode line ++ [lineBreak]) = Utf8.encode (withoutReturn line) := by
  obtain ⟨cs, rfl⟩ : ∃ cs, line = String.ofList cs := ⟨line.toList, String.ofList_toList.symm⟩
  rw [withoutEnd_concat]
  unfold withoutReturn Utf8.encode
  rw [String.toList_ofList]
  rcases List.eq_nil_or_concat cs with rfl | ⟨front, c, rfl⟩
  · rfl
  · rw [List.concat_eq_append, List.flatMap_append, List.flatMap_singleton, List.getLast?_concat,
      List.dropLast_concat]
    by_cases hc : c = '\r'
    · have hreturn : String.utf8EncodeChar c = [carriageReturn] := by rw [hc]; rfl
      rw [hreturn, List.getLast?_concat, if_pos rfl, List.dropLast_concat,
        if_pos (congrArg some hc),
        String.toList_ofList]
    · have hbytes : (front.flatMap String.utf8EncodeChar ++ String.utf8EncodeChar c).getLast? ≠
          some carriageReturn := by
        intro hlast
        -- A byte that is a character of its own is the last of the last character.
        obtain ⟨lead, tail, hencode, -⟩ := Utf8.headPiece_encodeChar c []
        have hmem : carriageReturn ∈ String.utf8EncodeChar c := by
          rw [List.getLast?_append, hencode] at hlast
          rw [hencode]
          exact List.mem_of_getLast? (by simpa using hlast)
        exact hc (Utf8.encodeChar_of_ascii_mem hmem (by decide)).1
      rw [if_neg hbytes, if_neg fun hlast => hc (Option.some.inj hlast), String.toList_ofList,
        List.flatMap_append, List.flatMap_singleton]

/-- Pieces that all end in a separator but the last are the pieces with separators between
them. -/
theorem flatten_concat_eq_intercalate (separator : UInt8) (front : List Bytes) (last : Bytes) :
    (front.map (· ++ [separator])).flatten ++ last =
      [separator].intercalate (front ++ [last]) := by
  induction front with
  | nil => simp [List.intercalate_singleton]
  | cons piece rest ih =>
    obtain ⟨next, more, hnext⟩ : ∃ next more, rest ++ [last] = next :: more :=
      List.exists_cons_of_ne_nil (by simp)
    rw [List.cons_append, hnext, List.intercalate_cons_cons, ← hnext, ← ih]
    simp

/-- The bytes are cut into the lines that they were made of. -/
theorem outputLines_bytes (o : OutputText) :
    outputLines o.bytes = (o.ended.map fun line => Utf8.encode line ++ [lineBreak]) ++
      if o.rest.isEmpty then [] else [Utf8.encode o.rest] := by
  have hbytes : o.bytes =
      [lineBreak].intercalate (o.ended.map Utf8.encode ++ [Utf8.encode o.rest]) := by
    rw [← flatten_concat_eq_intercalate, List.map_map]
    rfl
  have hparts : o.bytes.splitOn lineBreak = o.ended.map Utf8.encode ++ [Utf8.encode o.rest] := by
    rw [hbytes]
    -- No line has a break inside, so the cuts are where the lines were put together.
    refine List.splitOn_intercalate lineBreak ?_ (by simp)
    refine List.forall_mem_append.mpr ⟨?_, ?_⟩
    · exact List.forall_mem_map.mpr fun line hline =>
        lineBreak_notMem (o.ended_noBreak line hline)
    · exact List.forall_mem_singleton.mpr (lineBreak_notMem o.rest_noBreak)
  have hrest := Utf8.encode_eq_nil_iff o.rest
  unfold outputLines
  rw [hparts]
  dsimp only
  rw [List.dropLast_concat, List.getLast?_concat, List.map_map]
  cases hlast : Utf8.encode o.rest with
  | nil =>
    rw [hrest.mp hlast]
    simp [Function.comp_def]
  | cons b more =>
    have hsome : o.rest ≠ "" := fun hempty => by simp [hrest.mpr hempty] at hlast
    simp [Function.comp_def, hsome]

/-- What the bytes of a text mean, after their end is taken off. -/
theorem meaning_of_withoutEnd {line : Bytes} {text : String}
    (h : withoutEnd line = Utf8.encode text) :
    meaning line = meaningOfText text := by
  unfold meaning
  rw [h]
  dsimp only
  rw [Utf8.fault?_encode, Utf8.decode?_encode]

/-- Lines of bytes that mean what lines of text mean, one by one. -/
def SayTheSame (lines : List Bytes) (texts : List String) : Prop :=
  List.Forall₂ (fun line text => meaning line = meaningOfText text) lines texts

/-- The lines that are read say what the lines of the text say. -/
theorem sayTheSame_outputLines (o : OutputText) : SayTheSame (outputLines o.bytes) o.lines := by
  rw [outputLines_bytes]
  refine List.rel_append ?_ ?_
  · rw [List.forall₂_map_left_iff, List.forall₂_map_right_iff, List.forall₂_same]
    exact fun line _ => meaning_of_withoutEnd (withoutEnd_encode line)
  · split
    · exact .nil
    · exact .cons (meaning_of_withoutEnd (withoutEnd_of_notMem (lineBreak_notMem o.rest_noBreak)))
        .nil

/-! ### The first terminal line -/

/-- A line after which nothing is read. -/
def IsTerminal (line : String) : Prop := ∃ verdict, Says line (.terminal verdict)

/-- Which of some lines come before the first terminal one, and what that one says. -/
inductive EndsAt (lines : List String) : List String → Verdict → Prop
  | terminal {before after : List String} {line : String} {verdict : Verdict} :
    lines = before ++ line :: after → (∀ l ∈ before, ¬ IsTerminal l) →
    Says line (.terminal verdict) → EndsAt lines before verdict
  | silent : (∀ l ∈ lines, ¬ IsTerminal l) → EndsAt lines lines .silent

/-- The batches that lines bring: those of the statuses, in order and once each. -/
inductive Brings : List String → List StatusResponse → Prop
  | nil : Brings [] []
  | blank {line : String} {lines : List String} {batches : List StatusResponse} :
    Says line .blank → Brings lines batches → Brings (line :: lines) batches
  | status {line : String} {lines : List String} {batch : StatusResponse}
    {batches : List StatusResponse} : Says line (.status batch) → Brings lines batches →
    Brings (line :: lines) (batch :: batches)

/-- A line that is not terminal only adds to what comes before the first one that is. -/
theorem EndsAt.cons {line : String} {lines before : List String} {verdict : Verdict}
    (h : EndsAt lines before verdict) (hline : ¬ IsTerminal line) :
    EndsAt (line :: lines) (line :: before) verdict := by
  cases h with
  | terminal heq hbefore hverdict =>
    exact .terminal (by rw [heq, List.cons_append])
      (List.forall_mem_cons.mpr ⟨hline, hbefore⟩) hverdict
  | silent hall => exact .silent (List.forall_mem_cons.mpr ⟨hline, hall⟩)

/-- The first line is terminal, or the rest ends in the same way. -/
theorem EndsAt.cons_cases {line : String} {rest before : List String} {verdict : Verdict}
    (h : EndsAt (line :: rest) before verdict) :
    before = [] ∧ Says line (.terminal verdict) ∨
      ∃ more, before = line :: more ∧ ¬ IsTerminal line ∧ EndsAt rest more verdict := by
  cases h with
  | @terminal _ after last _ heq hbefore hverdict =>
    cases before with
    | nil =>
      rw [List.nil_append, List.cons.injEq] at heq
      exact Or.inl ⟨rfl, heq.1 ▸ hverdict⟩
    | cons first more =>
      rw [List.cons_append, List.cons.injEq] at heq
      obtain ⟨rfl, heq⟩ := heq
      obtain ⟨hline, hmore⟩ := List.forall_mem_cons.mp hbefore
      exact Or.inr ⟨more, rfl, hline, .terminal heq hmore hverdict⟩
  | silent hall =>
    obtain ⟨hline, hrest⟩ := List.forall_mem_cons.mp hall
    exact Or.inr ⟨rest, rfl, hline, .silent hrest⟩

/-- All lines end in one of these ways, and the ones before the end bring batches. -/
theorem exists_endsAt (lines : List String) :
    ∃ before verdict batches, EndsAt lines before verdict ∧ Brings before batches := by
  induction lines with
  | nil => exact ⟨[], .silent, [], .silent (by simp), .nil⟩
  | cons line rest ih =>
    obtain ⟨before, verdict, batches, hends, hbrings⟩ := ih
    have hsays := (meaningOfText_eq_iff line _).mp rfl
    cases hmeaning : meaningOfText line with
    | blank =>
      rw [hmeaning] at hsays
      have hnot : ¬ IsTerminal line := fun ⟨_, h⟩ => by cases hsays.unique h
      exact ⟨line :: before, verdict, batches, hends.cons hnot, .blank hsays hbrings⟩
    | status batch =>
      rw [hmeaning] at hsays
      have hnot : ¬ IsTerminal line := fun ⟨_, h⟩ => by cases hsays.unique h
      exact ⟨line :: before, verdict, batch :: batches, hends.cons hnot, .status hsays hbrings⟩
    | terminal last =>
      rw [hmeaning] at hsays
      exact ⟨[], last, [], .terminal (List.nil_append _).symm (by simp) hsays, .nil⟩

/-- Reading one line after the other stops at the first terminal one. -/
theorem readLines_eq {lines : List Bytes} {texts before : List String} {verdict : Verdict}
    {batches : List StatusResponse} (hlines : SayTheSame lines texts)
    (h : EndsAt texts before verdict) (hbrings : Brings before batches) :
    readLines lines = (batches, verdict) := by
  induction hlines generalizing before batches with
  | nil =>
    cases h with
    | terminal heq => simp at heq
    | silent =>
      cases hbrings
      rfl
  | @cons line text _ _ hline _ ih =>
    rcases h.cons_cases with ⟨rfl, hverdict⟩ | ⟨more, rfl, -, hmore⟩
    · cases hbrings
      rw [readLines, hline, (meaningOfText_eq_iff _ _).mpr hverdict]
    · cases hbrings with
      | blank hsays hrest =>
        rw [readLines, hline, (meaningOfText_eq_iff _ _).mpr hsays]
        exact ih hmore hrest
      | status hsays hrest =>
        rw [readLines, hline, (meaningOfText_eq_iff _ _).mpr hsays]
        dsimp only
        rw [ih hmore hrest]

/-- What is read of an output that is text is what its lines say up to the first terminal one. -/
theorem readOutput_bytes {o : OutputText} {before : List String} {verdict : Verdict}
    {batches : List StatusResponse} (h : EndsAt o.lines before verdict)
    (hbrings : Brings before batches) : readOutput o.bytes = (batches, verdict) :=
  readLines_eq (sayTheSame_outputLines o) h hbrings

/-! ### The engine -/

/-- How the engine returns after such an output of its program, where it returns at all: it waits
for the program to exit after the end of the solve and after the end of the output. -/
inductive Returns (exit : Option ExitStatus) : Verdict → TaskEnd → Prop
  | done {status : ExitStatus} : exit = some status → Returns exit .done .ok
  | failed (text : String) : Returns exit (.failed text) (.failed (.solve text))
  | malformed : Returns exit .malformed (.failed .protocol)
  | silent {status : ExitStatus} : exit = some status → Returns exit .silent
    (.failed (.solve s!"solver exited with {status.display} before reporting completion"))

section
variable {exit : Option ExitStatus} {verdict : Verdict}

/-- The engine returns well exactly after the end of the solve, once the program has exited. -/
theorem returns_ok_iff : Returns exit verdict .ok ↔ verdict = .done ∧ exit.isSome = true := by
  constructor
  · intro h
    cases h with
    | done hexit => exact ⟨rfl, by rw [hexit]; rfl⟩
  · rintro ⟨rfl, hexit⟩
    obtain ⟨status, hstatus⟩ := Option.isSome_iff_exists.mp hexit
    exact .done hstatus

/-- The engine reports a breach of the protocol exactly after a line that is no message. -/
theorem returns_protocol_iff : Returns exit verdict (.failed .protocol) ↔
    verdict = .malformed := by
  constructor
  · intro h
    cases h with
    | malformed => rfl
  · rintro rfl
    exact .malformed

/-- After an error the engine fails with its text and with nothing else. -/
theorem returns_failed_iff {text : String} {how : TaskEnd} :
    Returns exit (.failed text) how ↔ how = .failed (.solve text) := by
  constructor
  · intro h
    cases h with
    | failed => rfl
  · rintro rfl
    exact .failed text

end

/-- The line that ends an output of text is text itself. -/
theorem EndsAt.ne_notText {lines before : List String} {fault : Utf8.Fault} :
    ¬ EndsAt lines before (.notText fault) := by
  intro h
  cases h with
  | terminal _ _ hverdict => cases hverdict

/-- The result is told by the exit status and the verdict. -/
theorem resultOf_eq_some_iff {exit : Option ExitStatus} {verdict : Verdict} {how : TaskEnd}
    (hverdict : ∀ fault, verdict ≠ .notText fault) :
    Program.resultOf exit verdict = some how ↔ Returns exit verdict how := by
  unfold Program.resultOf
  constructor
  · intro h
    cases verdict with
    | notText fault => exact absurd rfl (hverdict fault)
    | done =>
      obtain ⟨status, hstatus, rfl⟩ := Option.map_eq_some_iff.mp h
      exact .done hstatus
    | failed text => cases h; exact .failed text
    | malformed => cases h; exact .malformed
    | silent =>
      obtain ⟨status, hstatus, rfl⟩ := Option.map_eq_some_iff.mp h
      exact .silent hstatus
  · intro h
    cases h with
    | done hstatus | silent hstatus => rw [hstatus]; rfl
    | failed | malformed => rfl

/-- What an engine does: it sends these batches one after the other, and after that it returns as
`Returns` says, or never where `Returns` allows no way. -/
structure Does (e : EngineScript) (batches : List StatusResponse) (exit : Option ExitStatus)
    (verdict : Verdict) : Prop where
  sendings : e.sendings.map (·.batch) = batches.map some
  returns : ∀ how, (e.after.isSome = true ∧ e.ends = how) ↔ Returns exit verdict how

/-- The script of a program does what the lines of its output say. -/
theorem does_engineScript {o : OutputText} {b : Behaviour} (houtput : b.output = o.bytes)
    {before : List String} {verdict : Verdict} {batches : List StatusResponse}
    (h : EndsAt o.lines before verdict) (hbrings : Brings before batches) :
    Does (Program.engineScript true b) batches b.exit verdict := by
  have hread : readOutput b.output = (batches, verdict) := by
    rw [houtput, readOutput_bytes h hbrings]
  have hverdict : ∀ fault, verdict ≠ .notText fault := by
    rintro fault rfl
    exact h.ne_notText
  unfold Program.engineScript
  rw [if_pos rfl, hread]
  refine ⟨?_, fun how => ?_⟩
  · simp
  · rw [← resultOf_eq_some_iff hverdict]
    cases hresult : Program.resultOf b.exit verdict with
    | none => simp [hresult]
    | some _ => simp [hresult]

/-- What has become of the batches at a stage of a solve: they are sent in order and once each,
and an engine that has returned by itself has sent all of them, and returned as `Returns` says.
The exception is that nobody takes its batches any more, which only happens in a cancelled
scope. -/
structure Forwards (g : Stage) (batches : List StatusResponse) (exit : Option ExitStatus)
    (verdict : Verdict) : Prop where
  isPrefix : g.run.relay.sent <+: batches
  returned : ∀ how, g.run.EngineReturned how →
    g.run.relay.sent = batches ∧ Returns exit verdict how ∨
      how = .failed (.relay "closed") ∧ g.run.scopeCancelled = true

/-- What the engine does is what its script says. -/
theorem Does.forwards {batches : List StatusResponse} {exit : Option ExitStatus}
    {verdict : Verdict} {s : Script} (h : Does s.engine batches exit verdict) (fuel : Nat) :
    Forwards (Stage.advance s fuel (.start s)) batches exit verdict := by
  have hfollows := Stage.follows_advance s fuel
  generalize Stage.advance s fuel (.start s) = g at hfollows
  obtain ⟨done, hall, hdone⟩ := hfollows.sent
  -- The batches are those that were sent and those that are left.
  have hbatches : batches.map some = g.run.relay.sent.map some ++ g.sendings.map (·.batch) := by
    rw [← h.sendings, hall, List.map_append, hdone]
  have hsome : Function.Injective (some : StatusResponse → Option StatusResponse) :=
    fun _ _ => Option.some.inj
  refine ⟨?_, fun how hreturned => ?_⟩
  · rw [← List.prefix_map_iff_of_injective hsome, hbatches]
    exact List.prefix_append _ _
  · cases hfollows.returned how hreturned with
    | closed hcancelled => exact Or.inr ⟨rfl, hcancelled⟩
    | unreadable hsendings hbatch =>
      -- All that is left are batches.
      have hmem : none ∈ batches.map some := by
        rw [hbatches, hsendings, List.map_cons, hbatch]
        exact List.mem_append_right _ List.mem_cons_self
      simp at hmem
    | ended hnil hafter =>
      rw [hnil, List.map_nil, List.append_nil] at hbatches
      have hsent : g.run.relay.sent = batches := (List.map_injective_iff.mpr hsome hbatches).symm
      exact Or.inl ⟨hsent, (h.returns _).mp ⟨hafter, rfl⟩⟩

/-- Outputs with the same batches before the same terminal line are one to the engine. How the
program exits matters only if no line is terminal, and after it said that it is done only whether
it exits. -/
theorem engineScript_congr {b b' : Behaviour} (hread : readOutput b'.output = readOutput b.output)
    (hsilent : (readOutput b.output).2 = .silent → b'.exit = b.exit)
    (hdone : (readOutput b.output).2 = .done → b'.exit.isSome = b.exit.isSome) :
    Program.engineScript true b' = Program.engineScript true b := by
  unfold Program.engineScript
  rw [if_pos rfl, if_pos rfl, hread]
  generalize readOutput b.output = read at hsilent hdone
  obtain ⟨batches, verdict⟩ := read
  have hresult : Program.resultOf b'.exit verdict = Program.resultOf b.exit verdict := by
    unfold Program.resultOf
    cases verdict with
    | silent => rw [hsilent rfl]
    | done =>
      have hexits := hdone rfl
      cases hexit : b.exit <;> cases hexit' : b'.exit <;> simp_all
    | failed | malformed | notText => rfl
  dsimp only
  rw [hresult]

/-- The output of a solver program counts up to its first terminal line, whatever lines there are
and whether or not the last one has a line break. The engine sends the batches of the statuses
before that line, in order and once each, and passes over blank lines. It returns as that line
says: well if it is done, with the text of an error, as a breach of the protocol if it is no
message, and as a failed solve if no line is terminal. Nothing that comes behind that line
matters, and after it said that it is done no more does how the program exits. -/
theorem solve_endsAt_firstTerminal (o : OutputText) {b : Behaviour}
    (houtput : b.output = o.bytes) :
    (∃ before verdict batches, EndsAt o.lines before verdict ∧ Brings before batches) ∧
    ∀ before verdict batches, EndsAt o.lines before verdict → Brings before batches →
      Does (Program.engineScript true b) batches b.exit verdict ∧
      (∀ (s : Script) (fuel : Nat), s.engine = Program.engineScript true b →
        Forwards (Stage.advance s fuel (.start s)) batches b.exit verdict) ∧
      ∀ (o' : OutputText) (b' : Behaviour) (before' : List String), b'.output = o'.bytes →
        EndsAt o'.lines before' verdict → Brings before' batches →
        (verdict = .silent → b'.exit = b.exit) →
        (verdict = .done → b'.exit.isSome = b.exit.isSome) →
        Program.engineScript true b' = Program.engineScript true b := by
  refine ⟨exists_endsAt o.lines, fun before verdict batches hends hbrings => ?_⟩
  have hdoes := does_engineScript houtput hends hbrings
  refine ⟨hdoes, fun s fuel hengine => ?_, ?_⟩
  · rw [← hengine] at hdoes
    exact hdoes.forwards fuel
  · intro o' b' before' houtput' hends' hbrings' hsilent hdone
    have hread : readOutput b.output = (batches, verdict) := by
      rw [houtput, readOutput_bytes hends hbrings]
    have hread' : readOutput b'.output = (batches, verdict) := by
      rw [houtput', readOutput_bytes hends' hbrings']
    refine engineScript_congr (hread'.trans hread.symm) ?_ ?_
    · rw [hread]
      exact hsilent
    · rw [hread]
      exact hdone

/-- A line that reports a vertex. -/
def vertexLine : String :=
  "\x7b\"status\":\x7b\"vertexes\":[\x7b\"digest\":\"d\",\"name\":\"n\"\x7d]\x7d\x7d"

/-- The batch of that line. -/
def vertexBatch : StatusResponse := ⟨[⟨"d", [], "n", false, none, none, ""⟩], [], []⟩

/-- A status, a blank line, the end of the solve, and a line that is no message. -/
def doneEarly : OutputText where
  ended := [vertexLine, "", "\x7b\"done\":\x7b\x7d\x7d\r"]
  rest := "nothing"
  ended_noBreak := by decide
  rest_noBreak := by decide

/-- The program says more after it is done, and it exits with a failure. -/
def doneEarlyProgram : Behaviour := ⟨doneEarly.bytes, some (.code 3), none⟩

/-- The engine sends the one batch and returns well. -/
theorem doneEarly_endsAt :
    EndsAt doneEarly.lines [vertexLine, ""] .done ∧ Brings [vertexLine, ""] [vertexBatch] ∧
    Does (Program.engineScript true doneEarlyProgram) [vertexBatch] (some (.code 3)) .done ∧
    Returns (some (.code 3)) .done .ok := by
  have hstatus : Says vertexLine (.status vertexBatch) :=
    (meaningOfText_eq_iff _ _).mp (by decide +kernel)
  have hblank : Says "" .blank := (meaningOfText_eq_iff _ _).mp (by decide +kernel)
  have hdone : Says "\x7b\"done\":\x7b\x7d\x7d" (.terminal .done) :=
    (meaningOfText_eq_iff _ _).mp (by decide +kernel)
  have hlines : doneEarly.lines =
      [vertexLine, ""] ++ "\x7b\"done\":\x7b\x7d\x7d" :: ["nothing"] := by
    decide +kernel
  have hends : EndsAt doneEarly.lines [vertexLine, ""] .done := by
    refine .terminal hlines ?_ hdone
    refine List.forall_mem_cons.mpr ⟨?_, List.forall_mem_singleton.mpr ?_⟩
    · rintro ⟨verdict, hverdict⟩
      cases hstatus.unique hverdict
    · rintro ⟨verdict, hverdict⟩
      cases hblank.unique hverdict
  have hbrings : Brings [vertexLine, ""] [vertexBatch] := .status hstatus (.blank hblank .nil)
  have houtput : doneEarlyProgram.output = doneEarly.bytes := rfl
  have hdoes := ((solve_endsAt_firstTerminal doneEarly houtput).2 _ _ _ hends hbrings).1
  exact ⟨hends, hbrings, hdoes, .done rfl⟩

end ImageBuild.Engine
