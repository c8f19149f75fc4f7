import ImageBuild.Progress.Renderer

/-!
# `ImageBuild.Proofs.Progress.Pages`: what is written, update by update

A renderer goes through a batch in the order vertices, counters, logs. `Batch.updates` is that
order as one list, and `pages` is what the renderer writes for each update of such a list, line by
line, where a `Line` also says what it is: the name of a vertex, its outcome, or something else.
`run_eq` puts the pages together again: a sink that takes everything gets their text, one after
the other.

What is written of a vertex hangs on two flags that the renderer keeps for it, `hasStarted` and
`hasFinished`. An update raises a flag if it says so, and nothing lowers one
(`written_renderUpdate`). After a run they are therefore about all updates of the run:
`written_after`.
-/

set_option autoImplicit false

namespace ImageBuild.Progress

/-! ### Updates and lines -/

/-- One thing that a batch tells. -/
inductive Update
  | vertex (v : Vertex)
  | counter (c : Counter)
  | log (l : Log Nat)
  deriving DecidableEq, Repr

/-- The updates of a batch, in the order in which they are rendered. -/
def Batch.updates (b : SolveStatus) : List Update :=
  b.vertexes.map .vertex ++ b.counters.map .counter ++ b.logs.map .log

/-- Whether the update says of a vertex what `P` asks for. -/
def Update.tells (P : Vertex → Bool) (digest : String) : Update → Bool
  | .vertex v => v.digest == digest && P v
  | .counter _ | .log _ => false

/-- A line, and what it is. -/
inductive Line
  | name (digest : String) (number : Nat) (text : String)
  | outcome (digest : String) (number : Nat) (text : String)
  /-- A line about a counter or of a log, as it is written. -/
  | other (text : String)
  deriving DecidableEq, Repr

namespace Line

/-- The line as it is written. -/
def text : Line → String
  | .name _ number text | .outcome _ number text => Renderer.line number text
  | .other text => text

/-- Whether it is the name of a vertex. -/
def isNameOf (digest : String) : Line → Bool
  | .name d _ _ => d == digest
  | .outcome .. | .other _ => false

/-- Whether it is the outcome of a vertex. -/
def isOutcomeOf (digest : String) : Line → Bool
  | .outcome d _ _ => d == digest
  | .name .. | .other _ => false

end Line

namespace Renderer

variable {v : Vertex}

/-- Whether an update says how the vertex ended. -/
def ends (v : Vertex) : Bool := (outcome? v).isSome

/-- Whether the name of a vertex was written, and whether its outcome was. -/
def written (r : Renderer) (digest : String) : Bool × Bool :=
  match r.find? digest with
  | some seen => (seen.started, seen.finished)
  | none => (false, false)

/-- Whether the name of a vertex was written. -/
def hasStarted (r : Renderer) (digest : String) : Bool := (r.written digest).1

/-- Whether the outcome of a vertex was written. -/
def hasFinished (r : Renderer) (digest : String) : Bool := (r.written digest).2

/-- The lines about one update, and the renderer after it. -/
def renderUpdate (r : Renderer) : Update → List String × Renderer
  | .vertex v => r.renderVertex v
  | .counter c => r.renderCounter c
  | .log l => r.renderLog l

/-- The renderer after some updates. -/
def after (r : Renderer) (us : List Update) : Renderer :=
  us.foldl (fun r u => (r.renderUpdate u).2) r

/-- The lines about one update, each with what it is. -/
def linesOf (r : Renderer) (u : Update) : List Line :=
  match u with
  | .vertex v =>
    let number := (r.renderUpdate u).2.number v.digest
    (if !r.hasStarted v.digest && begins v then [.name v.digest number v.name] else []) ++
      (if r.hasFinished v.digest then [] else (outcome? v).toList.map (.outcome v.digest number))
  | .counter _ | .log _ => (r.renderUpdate u).1.map .other

/-- The lines about each of some updates. -/
def pages (r : Renderer) : List Update → List (List Line)
  | [] => []
  | u :: us => r.linesOf u :: pages (r.renderUpdate u).2 us

/-! ### What is remembered of a vertex -/

/-- A vertex of which the renderer hears is there, as it was before or with nothing written. -/
theorem find?_note (r : Renderer) (digest d : String) :
    (r.note digest).find? d =
      (r.find? d).or (if d = digest then some ⟨digest, r.lines.length + 1, false, false⟩ else
        none) := by
  unfold note
  cases hfind : r.find? digest with
  | some seen =>
    show r.find? d = _
    by_cases hd : d = digest
    · subst hd
      rw [hfind]
      rfl
    · rw [if_neg hd, Option.or_none]
  | none =>
    show List.find? _ (r.lines ++ [_]) = _
    rw [List.find?_append]
    congr 1
    rw [List.find?_singleton]
    by_cases hd : d = digest
    · rw [if_pos hd, if_pos (beq_iff_eq.mpr hd.symm)]
    · rw [if_neg hd, if_neg fun h => hd (beq_iff_eq.mp h).symm]

/-- Other flags change what is remembered of one vertex. -/
theorem find?_mark (r : Renderer) (digest d : String) (started finished : Bool) :
    (r.mark digest started finished).find? d =
      (r.find? d).map fun l => if d = digest then ⟨l.digest, l.number, started, finished⟩ else
        l := by
  unfold mark find?
  rw [List.find?_map]
  have hsame : ((fun l : VertexLine => l.digest == d) ∘ fun l =>
      if l.digest = digest then (⟨l.digest, l.number, started, finished⟩ : VertexLine) else l) =
      fun l => l.digest == d := by
    funext l
    show ((if l.digest = digest then
      (⟨l.digest, l.number, started, finished⟩ : VertexLine) else l).digest == d) = _
    split <;> rfl
  rw [hsame]
  refine Option.map_congr fun l hl => ?_
  have hdigest : l.digest = d := by simpa using List.find?_some hl
  rw [hdigest]

/-- To hear of a vertex writes nothing. -/
theorem written_note (r : Renderer) (digest d : String) :
    (r.note digest).written d = r.written d := by
  unfold written
  rw [find?_note]
  cases r.find? d with
  | some seen => rfl
  | none =>
    by_cases hd : d = digest
    · rw [if_pos hd]
      rfl
    · rw [if_neg hd]
      rfl

/-- Marking a vertex says what was written of it, if it has a line. -/
theorem written_mark (r : Renderer) (digest d : String) (started finished : Bool) :
    (r.mark digest started finished).written d =
      if d = digest ∧ (r.find? d).isSome then (started, finished) else r.written d := by
  unfold written
  rw [find?_mark]
  cases r.find? d with
  | none => simp
  | some seen =>
    show _ = if d = digest ∧ true = true then _ else _
    by_cases hd : d = digest
    · simp [hd]
    · simp [hd]

/-- The vertex of which the renderer hears is remembered. -/
theorem exists_find?_note (r : Renderer) (digest : String) :
    ∃ seen, (r.note digest).find? digest = some seen ∧
      r.written digest = (seen.started, seen.finished) := by
  rw [← written_note r digest]
  unfold written
  rw [find?_note, if_pos rfl]
  cases r.find? digest with
  | some seen => exact ⟨seen, rfl, rfl⟩
  | none => exact ⟨_, rfl, rfl⟩

/-- What an update of a vertex writes, and what is remembered after it. -/
theorem renderVertex_eq (r : Renderer) (v : Vertex) :
    ∃ seen, (r.note v.digest).find? v.digest = some seen ∧
      r.renderVertex v =
        ((if !r.hasStarted v.digest && begins v then [line seen.number v.name] else []) ++
            (if r.hasFinished v.digest then [] else (outcome? v).toList.map (line seen.number)),
          (r.note v.digest).mark v.digest (r.hasStarted v.digest || begins v)
            (r.hasFinished v.digest || ends v)) := by
  obtain ⟨seen, hseen, hwritten⟩ := exists_find?_note r v.digest
  refine ⟨seen, hseen, ?_⟩
  unfold renderVertex hasStarted hasFinished
  dsimp only
  rw [hseen, hwritten]
  -- Of what the renderer does, only its own flags decide.
  obtain ⟨_, number, started, finished⟩ := seen
  refine Prod.ext ?_ ?_
  · cases finished with
    | true => rfl
    | false => cases outcome? v <;> rfl
  · cases started <;> cases finished <;> rfl

/-- Rendering a vertex does not change its number. -/
theorem number_renderVertex {r : Renderer} {seen : VertexLine}
    (hseen : (r.note v.digest).find? v.digest = some seen) :
    (r.renderVertex v).2.number v.digest = seen.number := by
  obtain ⟨seen', hseen', hrender⟩ := renderVertex_eq r v
  cases hseen.symm.trans hseen'
  rw [hrender]
  unfold number
  rw [find?_mark, hseen]
  simp

/-- An update raises the flags of its vertex if it says so, and no other flag changes. -/
theorem written_renderUpdate (r : Renderer) (u : Update) (d : String) :
    (r.renderUpdate u).2.written d =
      (r.hasStarted d || u.tells begins d, r.hasFinished d || u.tells ends d) := by
  cases u with
  | counter c =>
    show (r.note c.vertex).written d = (r.hasStarted d || false, r.hasFinished d || false)
    rw [written_note, Bool.or_false, Bool.or_false]
    rfl
  | log l =>
    show (r.note l.vertex).written d = (r.hasStarted d || false, r.hasFinished d || false)
    rw [written_note, Bool.or_false, Bool.or_false]
    rfl
  | vertex v =>
    obtain ⟨seen, hseen, hrender⟩ := renderVertex_eq r v
    show (r.renderVertex v).2.written d =
      (r.hasStarted d || (v.digest == d && begins v),
        r.hasFinished d || (v.digest == d && ends v))
    rw [hrender]
    dsimp only
    rw [written_mark, written_note]
    -- The flags that the update raises are those of its own vertex.
    by_cases hd : d = v.digest
    · subst hd
      rw [hseen, if_pos ⟨rfl, rfl⟩, beq_self_eq_true, Bool.true_and, Bool.true_and]
    · have hother : (v.digest == d) = false := beq_false_of_ne (Ne.symm hd)
      rw [if_neg fun h => hd h.1, hother, Bool.false_and, Bool.false_and, Bool.or_false,
        Bool.or_false]
      rfl

/-- A vertex has begun after an update if it had before, or if the update tells so. -/
theorem hasStarted_renderUpdate (r : Renderer) (u : Update) (d : String) :
    (r.renderUpdate u).2.hasStarted d = (r.hasStarted d || u.tells begins d) :=
  congrArg Prod.fst (written_renderUpdate r u d)

/-- A vertex has ended after an update if it had before, or if the update tells so. -/
theorem hasFinished_renderUpdate (r : Renderer) (u : Update) (d : String) :
    (r.renderUpdate u).2.hasFinished d = (r.hasFinished d || u.tells ends d) :=
  congrArg Prod.snd (written_renderUpdate r u d)

/-! ### Runs -/

/-- The first update, and then the others. -/
@[simp]
theorem after_cons (r : Renderer) (u : Update) (us : List Update) :
    r.after (u :: us) = (r.renderUpdate u).2.after us := rfl

/-- Updates in two parts. -/
theorem after_append (r : Renderer) (us us' : List Update) :
    r.after (us ++ us') = (r.after us).after us' := List.foldl_append

/-- What was written of a vertex after some updates is what one of them told, or what was before.
-/
theorem written_after (r : Renderer) (us : List Update) (d : String) :
    (r.after us).written d =
      (r.hasStarted d || us.any (·.tells begins d),
        r.hasFinished d || us.any (·.tells ends d)) := by
  induction us generalizing r with
  | nil =>
    show r.written d = (r.hasStarted d || false, r.hasFinished d || false)
    rw [Bool.or_false, Bool.or_false]
    rfl
  | cons u rest ih =>
    rw [after_cons, ih, hasStarted_renderUpdate, hasFinished_renderUpdate, Bool.or_assoc,
      Bool.or_assoc]
    rfl

/-- The pages of two parts stand one after the other. -/
theorem pages_append (r : Renderer) (us us' : List Update) :
    r.pages (us ++ us') = r.pages us ++ (r.after us).pages us' := by
  induction us generalizing r with
  | nil => rfl
  | cons u rest ih => exact congrArg _ (ih (r.renderUpdate u).2)

/-- The lines about an update are what is written. -/
theorem map_text_linesOf (r : Renderer) (u : Update) :
    (r.linesOf u).map Line.text = (r.renderUpdate u).1 := by
  cases u with
  | vertex v =>
    obtain ⟨seen, hseen, hrender⟩ := renderVertex_eq r v
    have hnumber : (r.renderUpdate (.vertex v)).2.number v.digest = seen.number :=
      number_renderVertex hseen
    show _ = (r.renderVertex v).1
    rw [hrender]
    unfold linesOf
    dsimp only
    rw [hnumber, List.map_append]
    congr 1
    · split <;> rfl
    · split
      · rfl
      · cases outcome? v <;> rfl
  | counter c =>
    show ((r.renderUpdate (.counter c)).1.map Line.other).map Line.text = _
    rw [List.map_map]
    exact List.map_id _
  | log l =>
    show ((r.renderUpdate (.log l)).1.map Line.other).map Line.text = _
    rw [List.map_map]
    exact List.map_id _

/-- All that is written for a list of things of one kind. -/
theorem renderAll_eq {α : Type} (f : Renderer → α → List String × Renderer) (update : α → Update)
    (hf : ∀ r x, f r x = r.renderUpdate (update x)) (r : Renderer) (xs : List α) :
    renderAll f r xs =
      ((r.pages (xs.map update)).flatten.map Line.text, r.after (xs.map update)) := by
  induction xs generalizing r with
  | nil => rfl
  | cons x rest ih =>
    rw [renderAll, hf]
    dsimp only
    rw [ih]
    show (_, _) = (((r.linesOf (update x)) ++ _).map Line.text, _)
    rw [List.map_append, map_text_linesOf]
    rfl

/-- What is written for a batch. -/
theorem render_eq (r : Renderer) (b : SolveStatus) :
    r.render b = ((r.pages b.updates).flatten.map Line.text, r.after b.updates) := by
  unfold render
  rw [renderAll_eq renderVertex .vertex fun _ _ => rfl]
  dsimp only
  rw [renderAll_eq renderCounter .counter fun _ _ => rfl]
  dsimp only
  rw [renderAll_eq renderLog .log fun _ _ => rfl]
  dsimp only
  unfold Batch.updates
  simp only [pages_append, after_append, List.flatten_append, List.map_append]

/-- All lines that a renderer writes for some batches, from its start. -/
def printed (batches : List SolveStatus) : List Line :=
  (new.pages (batches.flatMap Batch.updates)).flatten

/-- A sink that takes everything gets what is written for one batch after the other. -/
theorem run_eq (r : Renderer) (batches : List SolveStatus) :
    r.run ⟨none⟩ batches = (Utf8.encode (String.join
      ((r.pages (batches.flatMap Batch.updates)).flatten.map Line.text)), true) := by
  induction batches generalizing r with
  | nil => rfl
  | cons b rest ih =>
    rw [run]
    unfold writeStatus
    rw [render_eq]
    dsimp only [Sink.write]
    rw [if_pos rfl, ih, List.flatMap_cons, pages_append, List.flatten_append, List.map_append]
    unfold Utf8.encode
    simp [String.join_append]

end Renderer
end ImageBuild.Progress
