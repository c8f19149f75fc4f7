import ImageBuild.Request.Options
import ImageBuild.Text.Json

/-!
# `ImageBuild.Request.Solve`: what the engine is handed

A request is put to the engine as attributes of its frontend, a description of the export and two
local directories: the context, and the directory that holds the recipe. `SolveRequest.toJson?`
is its JSON form, which exists only if both directories are text.
-/

set_option autoImplicit false

namespace ImageBuild

/-- How and under which names the image is exported. -/
structure ExportDescriptor where
  exporter : String
  attrs : Attributes
  deriving DecidableEq, Repr

/-- Everything the engine needs for one solve. -/
structure SolveRequest where
  id : String
  sessionId : String
  frontend : String
  frontendAttrs : Attributes
  exportAs : ExportDescriptor
  /-- Directories by name, in the order of the names. -/
  localDirs : List (String × Path)
  deriving DecidableEq, Repr

namespace BuildRequest

/-- The first tag. -/
def primaryTag? (r : BuildRequest) : Option Reference := r.tags.head?

/-- The directory that holds the recipe. -/
def recipeDir (r : BuildRequest) : Path :=
  match r.recipePath.parent? with
  | some up => if up.isEmpty then ⟨dot⟩ else up
  | none => ⟨dot⟩

/-- The name of the recipe in its directory. -/
def recipeName (r : BuildRequest) : String :=
  Utf8.decodeLossy (r.recipePath.fileName?.getD Context.defaultRecipe)

/-- The list as one text. -/
def commaList (xs : List String) : String := ",".intercalate xs

/-- Adds the entries under their keys with a label in front. -/
def addAll (label : String) (a : Attributes) (entries : Attributes) : Attributes :=
  entries.entries.foldl (fun a e => a.insert (label ++ e.1) e.2) a

/-- The attributes of the frontend. -/
def frontendAttributes (r : BuildRequest) : Attributes :=
  let named := Attributes.empty.insert "filename" r.recipeName
  let targeted := match r.target with
    | some target => named.insert "target" target
    | none => named
  let placed := targeted.insert "platform" (commaList r.platforms)
  let all := addAll "label:" (addAll "build-arg:" placed r.buildArgs) r.labels
  if r.cacheDisabled then all.insert "no-cache" "" else all

/-- The image under all its names. -/
def exportDescriptor (r : BuildRequest) : ExportDescriptor :=
  ⟨"image", .ofList [("name", commaList (r.tags.map Reference.display))]⟩

/-- The request for one solve. -/
def solveRequest (r : BuildRequest) (id sessionId : String) : SolveRequest where
  id := id
  sessionId := sessionId
  frontend := "dockerfile.v0"
  frontendAttrs := r.frontendAttributes
  exportAs := r.exportDescriptor
  localDirs := [("context", r.contextDir), ("dockerfile-dir", r.recipeDir)]

end BuildRequest

/-- A map as a JSON object. -/
def Attributes.toJson (a : Attributes) : Json := .record (a.entries.map fun e => (e.1, .text e.2))

/-- The JSON form of an export. -/
def ExportDescriptor.toJson (e : ExportDescriptor) : Json :=
  .record [("exporter", .text e.exporter), ("attrs", e.attrs.toJson)]

namespace SolveRequest

/-- Named directories as a JSON object, if all of them are text. -/
def dirsToJson : List (String × Path) → Option (List (String × Json))
  | [] => some []
  | (name, p) :: rest =>
    match Utf8.decode? p.bytes with
    | some s => (dirsToJson rest).map ((name, .text s) :: ·)
    | none => none

/-- The JSON form. -/
def toJson? (r : SolveRequest) : Option Json :=
  (dirsToJson r.localDirs).map fun dirs =>
    .record [("id", .text r.id), ("session_id", .text r.sessionId),
      ("frontend", .text r.frontend),
      ("frontend_attrs", r.frontendAttrs.toJson), ("export", r.exportAs.toJson),
      ("local_dirs", .record dirs)]

/-- The line that hands the request to the engine, with its line break. -/
def line? (r : SolveRequest) : Option String := r.toJson?.map fun j => j.render ++ "\n"

end SolveRequest
end ImageBuild
