import ImageBuild.Progress.Status
import ImageBuild.Text.Seconds

/-!
# `ImageBuild.Progress.Renderer`: progress as lines of text

The renderer numbers vertices in the order in which it first hears of them and writes one line per
change: the name of a vertex once it runs or is cached, and its outcome once. `Renderer.render` is
the text of one batch and the renderer after it; a `Sink` is where the text goes, and may fill up.
-/

set_option autoImplicit false

namespace ImageBuild.Progress

/-- What the renderer remembers of a vertex. -/
structure VertexLine where
  digest : String
  number : Nat
  /-- Its name was written. -/
  started : Bool
  /-- Its outcome was written. -/
  finished : Bool
  deriving DecidableEq, Repr

/-- The vertices that the renderer has heard of, in the order of their numbers. -/
structure Renderer where
  lines : List VertexLine
  deriving DecidableEq, Repr

namespace Renderer

/-- The renderer that has heard of nothing. -/
def new : Renderer := ⟨[]⟩

/-- What is remembered of a digest. -/
def find? (r : Renderer) (digest : String) : Option VertexLine :=
  r.lines.find? fun l => l.digest == digest

/-- The renderer once it has heard of a digest; a new one gets the next number. -/
def note (r : Renderer) (digest : String) : Renderer :=
  match r.find? digest with
  | some _ => r
  | none => ⟨r.lines ++ [⟨digest, r.lines.length + 1, false, false⟩]⟩

/-- The number of a digest, `0` for one that was never heard of. -/
def number (r : Renderer) (digest : String) : Nat := ((r.find? digest).map (·.number)).getD 0

/-- The renderer with other flags for a digest. -/
def mark (r : Renderer) (digest : String) (started finished : Bool) : Renderer :=
  ⟨r.lines.map fun l => if l.digest = digest then ⟨l.digest, l.number, started, finished⟩ else l⟩

/-- One line about the vertex with a number. -/
def line (number : Nat) (text : String) : String := s!"#{number} {text}\n"

/-- How a vertex ended, if this update says so. An error goes before the cache, and the cache
before a completion time. -/
def outcome? (v : Vertex) : Option String :=
  if v.error ≠ "" then some s!"ERROR: {v.error}"
  else if v.cached then some "CACHED"
  else
    match v.completed, v.started with
    | some stop, some start =>
      some s!"DONE {Text.secondsText (Instant.millisBetween start stop).toNat}s"
    | some _, none => some "DONE"
    | none, _ => none

/-- Whether an update says that the vertex runs or needs not run. -/
def begins (v : Vertex) : Bool := v.started.isSome || v.cached

/-- The lines about one update of a vertex, and the renderer after it. -/
def renderVertex (r : Renderer) (v : Vertex) : List String × Renderer :=
  let r := r.note v.digest
  match r.find? v.digest with
  | none => ([], r)
  | some seen =>
    let announce := !seen.started && begins v
    let ending := if seen.finished then none else outcome? v
    ((if announce then [line seen.number v.name] else []) ++
        (match ending with
          | some text => [line seen.number text]
          | none => []),
      r.mark v.digest (seen.started || announce) (seen.finished || ending.isSome))

/-- The line about one counter, and the renderer after it. -/
def renderCounter (r : Renderer) (c : Counter) : List String × Renderer :=
  let r := r.note c.vertex
  let done := if c.completed.isSome then " done" else ""
  let amount := if 0 < c.total then s!"{c.current}/{c.total}" else s!"{c.current}"
  ([line (r.number c.vertex) s!"{c.name} {amount}{done}"], r)

/-- The lines of a text: a line break ends one, together with a carriage return before it. -/
def textLines (cs : List Char) : List (List Char) :=
  let parts := cs.splitOn '\n'
  let whole := parts.dropLast.map fun l => if l.getLast? = some '\r' then l.dropLast else l
  match parts.getLast? with
  | some [] | none => whole
  | some rest => whole ++ [rest]

/-- The lines about one log, and the renderer after it. -/
def renderLog (r : Renderer) (l : Log Nat) : List String × Renderer :=
  let r := r.note l.vertex
  let texts := textLines (Utf8.decodeLossy l.data).toList
  (texts.map fun t => line (r.number l.vertex) (String.ofList t), r)

/-- The lines about a list of updates, and the renderer after it. -/
def renderAll {α : Type} (f : Renderer → α → List String × Renderer) (r : Renderer) :
    List α → List String × Renderer
  | [] => ([], r)
  | x :: xs =>
    let (here, r) := f r x
    let (later, r) := renderAll f r xs
    (here ++ later, r)

/-- The lines about one batch, and the renderer after it: vertices, counters, logs. -/
def render (r : Renderer) (b : SolveStatus) : List String × Renderer :=
  let (vertexes, r) := renderAll renderVertex r b.vertexes
  let (counters, r) := renderAll renderCounter r b.counters
  let (logs, r) := renderAll renderLog r b.logs
  (vertexes ++ counters ++ logs, r)

end Renderer

/-- Where text goes. A sink with a limit takes that many more bytes and then refuses. -/
structure Sink where
  room : Option Nat
  deriving DecidableEq, Repr

namespace Sink

/-- The fault of a sink that refuses. -/
def fullMessage : String := "sink is full"

/-- What the sink takes of some bytes, whether that is all of them, and the sink after it. -/
def write (s : Sink) (bytes : Bytes) : Bytes × Bool × Sink :=
  match s.room with
  | none => (bytes, true, s)
  | some room => (bytes.take room, decide (bytes.length ≤ room), ⟨some (room - bytes.length)⟩)

end Sink

namespace Renderer

/-- Writes one batch to a sink. -/
def writeStatus (r : Renderer) (s : Sink) (b : SolveStatus) : Bytes × Bool × Renderer × Sink :=
  let (lines, r) := r.render b
  let (taken, all, s) := s.write (Utf8.encode (String.join lines))
  (taken, all, r, s)

/-- Writes batch after batch, up to the first that the sink does not take. -/
def run (r : Renderer) (s : Sink) : List SolveStatus → Bytes × Bool
  | [] => ([], true)
  | b :: rest =>
    let (taken, all, r, s) := r.writeStatus s b
    if all then
      let (more, end_) := run r s rest
      (taken ++ more, end_)
    else (taken, false)

end Renderer
end ImageBuild.Progress
