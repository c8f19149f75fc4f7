import ImageBuild.Text.Instant
import ImageBuild.Text.Utf8

/-!
# `ImageBuild.Progress.Status`: what engines report and renderers see

An engine reports batches of updates: vertices of the build graph, counters and log output.
`translate` maps a batch onto what renderers see. It keeps order and content; only the log
streams become descriptor numbers.
-/

set_option autoImplicit false

namespace ImageBuild.Progress

/-- A vertex of the build graph, as far as it is known. -/
structure Vertex where
  digest : String
  inputs : List String
  name : String
  cached : Bool
  started : Option Instant
  completed : Option Instant
  error : String
  deriving DecidableEq, Repr

/-- A counter of a vertex. -/
structure Counter where
  id : String
  vertex : String
  name : String
  current : Int
  total : Int
  timestamp : Instant
  started : Option Instant
  completed : Option Instant
  deriving DecidableEq, Repr

/-- Where a step wrote its output. -/
inductive LogStream
  | stdout
  | stderr
  deriving DecidableEq, Repr

namespace LogStream

/-- The name of the stream. -/
def name : LogStream → String
  | .stdout => "stdout"
  | .stderr => "stderr"

/-- The descriptor number of the stream. -/
def descriptor : LogStream → Nat
  | .stdout => 1
  | .stderr => 2

/-- The stream with this name. -/
def ofName? : String → Option LogStream
  | "stdout" => some .stdout
  | "stderr" => some .stderr
  | _ => none

end LogStream

/-- Output of a step; `σ` says how the stream is named. -/
structure Log (σ : Type) where
  vertex : String
  stream : σ
  data : Bytes
  timestamp : Instant
  deriving DecidableEq, Repr

/-- A batch of updates. -/
structure Batch (σ : Type) where
  vertexes : List Vertex
  counters : List Counter
  logs : List (Log σ)
  deriving DecidableEq, Repr

/-- A batch as the engine sends it. -/
abbrev StatusResponse := Batch LogStream

/-- A batch as renderers see it. -/
abbrev SolveStatus := Batch Nat

/-- Whether a batch says nothing. -/
def Batch.isEmpty {σ : Type} (b : Batch σ) : Bool :=
  b.vertexes.isEmpty && b.counters.isEmpty && b.logs.isEmpty

/-- A log with its stream as a descriptor number. -/
def Log.translate (l : Log LogStream) : Log Nat :=
  ⟨l.vertex, l.stream.descriptor, l.data, l.timestamp⟩

/-- What renderers see of a batch. -/
def translate (b : StatusResponse) : SolveStatus :=
  ⟨b.vertexes, b.counters, b.logs.map Log.translate⟩

end ImageBuild.Progress
