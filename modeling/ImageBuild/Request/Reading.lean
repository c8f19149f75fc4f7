import ImageBuild.Progress.Message
import ImageBuild.Request.Solve

/-!
# `ImageBuild.Request.Reading`: how a program reads the request

The program that solves is handed one line. `SolveRequest.ofLine?` reads it as the engine's own
messages are read: a record is an object or an array of its fields, and all fields have to be
there. A map is an object whose values are texts, and of two entries with one key the later one
counts.
-/

set_option autoImplicit false

namespace ImageBuild

open Progress (Fields readText)

/-- An entry of a map. -/
def Attributes.readEntry (field : Option String × Json) : Option (String × String) := do
  return (← field.1, ← readText field.2)

/-- A map from an object of texts. -/
def Attributes.ofJson? : Json → Option Attributes
  | .obj fields => (fields.mapM readEntry).map .ofList
  | _ => none

/-- An export from its JSON form. -/
def ExportDescriptor.ofJson? (v : Json) : Option ExportDescriptor := do
  let f ← Fields.of? ["exporter", "attrs"] v
  return {
    exporter := ← f.required 0 readText
    attrs := ← f.required 1 Attributes.ofJson? }

namespace SolveRequest

/-- Named directories, in the order of their names. -/
def readDirs (v : Json) : Option (List (String × Path)) :=
  (Attributes.ofJson? v).map fun a => a.entries.map fun e => (e.1, .ofString e.2)

/-- A request from its JSON form. -/
def ofJson? (v : Json) : Option SolveRequest := do
  let f ← Fields.of? ["id", "session_id", "frontend", "frontend_attrs", "export", "local_dirs"] v
  return {
    id := ← f.required 0 readText
    sessionId := ← f.required 1 readText
    frontend := ← f.required 2 readText
    frontendAttrs := ← f.required 3 Attributes.ofJson?
    exportAs := ← f.required 4 ExportDescriptor.ofJson?
    localDirs := ← f.required 5 readDirs }

/-- The request on a line. -/
def ofLine? (line : String) : Option SolveRequest := (Json.read? line).bind ofJson?

end SolveRequest
end ImageBuild
