import ImageBuild.Progress.Status
import ImageBuild.Text.Json
import ImageBuild.Text.Number

/-!
# `ImageBuild.Progress.Message`: the engine's messages in JSON

An engine sends one message a line: a status batch, the end of the solve, or an error text. A
record is an object, whose unknown fields count for nothing, or an array of its fields in order.
`EngineMessage.ofLine?` reads a line, `EngineMessage.toJson` is the form that is written.
-/

set_option autoImplicit false

namespace ImageBuild.Progress

/-! ### Reading records -/

/-- The values of a record's fields, in the order of the fields. -/
structure Fields where
  values : List (Option Json)
  /-- Whether they come from an array. -/
  positional : Bool

namespace Fields

/-- The value of a field in an object, or `none` if the object has it twice. -/
def lookup (fields : List (Option String × Json)) (name : String) : Option (Option Json) :=
  match fields.filter fun f => f.1 == some name with
  | [] => some none
  | [f] => some (some f.2)
  | _ => none

/-- The fields of a record with these names. -/
def of? (names : List String) : Json → Option Fields
  | .obj fields =>
    if fields.all (·.1.isSome) then (names.mapM (lookup fields)).map fun values => ⟨values, false⟩
    else none
  | .arr items =>
    if items.length ≤ names.length then
      some ⟨items.map some ++ List.replicate (names.length - items.length) none, true⟩
    else none
  | _ => none

/-- The value of a field, if it is there. -/
def value (f : Fields) (i : Nat) : Option Json := (f.values[i]?).join

/-- A field that has to be there. -/
def required {α : Type} (f : Fields) (i : Nat) (read : Json → Option α) : Option α :=
  (f.value i).bind read

/-- A field that may be missing. -/
def withDefault {α : Type} (f : Fields) (i : Nat) (d : α) (read : Json → Option α) : Option α :=
  match f.value i with
  | some v => read v
  | none => some d

/-- A field that may be null, and in an object also missing. -/
def nullable {α : Type} (f : Fields) (i : Nat) (read : Json → Option α) : Option (Option α) :=
  match f.value i with
  | some .null => some none
  | some v => (read v).map some
  | none => if f.positional then none else some none

end Fields

/-! ### Reading values -/

def readText : Json → Option String
  | .str s => s
  | _ => none

def readFlag : Json → Option Bool
  | .bool b => some b
  | _ => none

/-- A whole number of 64 bits with sign. -/
def readCount : Json → Option Int
  | .int n => if Text.isSigned n then some n else none
  | _ => none

def readByte : Json → Option UInt8
  | .int n => if 0 ≤ n ∧ n < 256 then some (UInt8.ofNat n.toNat) else none
  | _ => none

def readInstant (v : Json) : Option Instant := (readText v).bind Instant.read?

def readList {α : Type} (read : Json → Option α) : Json → Option (List α)
  | .arr items => items.mapM read
  | _ => none

/-- A stream by its name, or as an object that holds nothing under its name. -/
def readStream : Json → Option LogStream
  | .str (some name) => LogStream.ofName? name
  | .obj [(some name, .null)] => LogStream.ofName? name
  | _ => none

def readVertex (v : Json) : Option Vertex := do
  let f ← Fields.of?
    ["digest", "inputs", "name", "cached", "started", "completed", "error"] v
  return {
    digest := ← f.required 0 readText
    inputs := ← f.withDefault 1 [] (readList readText)
    name := ← f.required 2 readText
    cached := ← f.withDefault 3 false readFlag
    started := ← f.nullable 4 readInstant
    completed := ← f.nullable 5 readInstant
    error := ← f.withDefault 6 "" readText }

def readCounter (v : Json) : Option Counter := do
  let f ← Fields.of?
    ["id", "vertex", "name", "current", "total", "timestamp", "started", "completed"] v
  return {
    id := ← f.required 0 readText
    vertex := ← f.required 1 readText
    name := ← f.required 2 readText
    current := ← f.required 3 readCount
    total := ← f.required 4 readCount
    timestamp := ← f.required 5 readInstant
    started := ← f.nullable 6 readInstant
    completed := ← f.nullable 7 readInstant }

def readLog (v : Json) : Option (Log LogStream) := do
  let f ← Fields.of? ["vertex", "stream", "data", "timestamp"] v
  return {
    vertex := ← f.required 0 readText
    stream := ← f.required 1 readStream
    data := ← f.required 2 (readList readByte)
    timestamp := ← f.required 3 readInstant }

def readStatus (v : Json) : Option StatusResponse := do
  let f ← Fields.of? ["vertexes", "statuses", "logs"] v
  return {
    vertexes := ← f.withDefault 0 [] (readList readVertex)
    counters := ← f.withDefault 1 [] (readList readCounter)
    logs := ← f.withDefault 2 [] (readList readLog) }

/-- The batch that a text holds. -/
def responseOfText? (s : String) : Option StatusResponse := (Json.read? s).bind readStatus

/-! ### Messages -/

/-- A message of the engine. -/
inductive EngineMessage
  | status (batch : StatusResponse)
  | done
  | error (text : String)
  deriving DecidableEq, Repr

namespace EngineMessage

/-- The message that a value is. -/
def ofJson? : Json → Option EngineMessage
  | .obj [(some "status", v)] => (readStatus v).map .status
  | .obj [(some "done", v)] => (Fields.of? [] v).map fun _ => .done
  | .obj [(some "error", v)] => (readText v).map .error
  | _ => none

/-- The message on a line. -/
def ofLine? (line : String) : Option EngineMessage := (Json.read? line).bind ofJson?

end EngineMessage

/-! ### Writing -/

def instantJson : Option Instant → Json
  | some t => .text t.display
  | none => .null

def Vertex.toJson (v : Vertex) : Json :=
  .record [("digest", .text v.digest), ("inputs", .arr (v.inputs.map .text)),
    ("name", .text v.name),
    ("cached", .bool v.cached), ("started", instantJson v.started),
    ("completed", instantJson v.completed), ("error", .text v.error)]

def Counter.toJson (c : Counter) : Json :=
  .record [("id", .text c.id), ("vertex", .text c.vertex), ("name", .text c.name),
    ("current", .int c.current), ("total", .int c.total),
    ("timestamp", .text c.timestamp.display), ("started", instantJson c.started),
    ("completed", instantJson c.completed)]

/-- A log as JSON, given the form of the stream. -/
def Log.toJson {σ : Type} (stream : σ → Json) (l : Log σ) : Json :=
  .record [("vertex", .text l.vertex), ("stream", stream l.stream),
    ("data", .arr (l.data.map fun b => .int b.toNat)), ("timestamp", .text l.timestamp.display)]

/-- A batch as JSON, given the form of the streams. -/
def Batch.toJson {σ : Type} (stream : σ → Json) (b : Batch σ) : Json :=
  .record [("vertexes", .arr (b.vertexes.map Vertex.toJson)),
    ("statuses", .arr (b.counters.map Counter.toJson)),
    ("logs", .arr (b.logs.map (Log.toJson stream)))]

/-- A batch as the engine writes it. -/
def responseJson (b : StatusResponse) : Json := b.toJson fun s => .text s.name

/-- A batch as renderers see it. -/
def statusJson (b : SolveStatus) : Json := b.toJson fun (n : Nat) => .int n

/-- The written form of a message. -/
def EngineMessage.toJson : EngineMessage → Json
  | .status batch => .record [("status", responseJson batch)]
  | .done => .record [("done", .record [])]
  | .error text => .record [("error", .text text)]

end ImageBuild.Progress
