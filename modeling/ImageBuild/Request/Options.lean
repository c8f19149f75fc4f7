import ImageBuild.Attributes
import ImageBuild.Context.Source
import ImageBuild.Platform
import ImageBuild.Request.Fault

/-!
# `ImageBuild.Request.Options`: build options and the request they make

`BuildOptions` are what a user asks for, unchecked. `BuildOptions.build` checks them in a fixed
order, tags, recipe, build arguments, labels, and reports the first offence; what passes is a
`BuildRequest` with parsed tags, platforms without repetition and one value per key.
-/

set_option autoImplicit false

namespace ImageBuild

/-- What a user asks for. -/
structure BuildOptions where
  contextDir : Path
  recipe : Option Path
  tags : List String
  target : Option String
  platforms : List String
  buildArgs : List String
  labels : List String
  noCache : Bool
  deriving Repr, DecidableEq

/-- A checked build. -/
structure BuildRequest where
  recipePath : Path
  contextDir : Path
  /-- At least one; the first is the primary tag. -/
  tags : List Reference
  target : Option String
  platforms : List String
  buildArgs : Attributes
  labels : Attributes
  cacheDisabled : Bool
  deriving Repr, DecidableEq

namespace BuildOptions

/-- Options that name nothing but the context. -/
def ofContext (dir : Path) : BuildOptions := ⟨dir, none, [], none, [], [], [], false⟩

/-- Sets the stage to build; an empty name sets none. -/
def withTarget (o : BuildOptions) (target : Option String) : BuildOptions :=
  { o with target := target.filter fun t => !t.isEmpty }

/-- Key and value of an entry `key=value`; the key may not be empty. -/
def splitEntry (entry : String) : Option (String × String) :=
  let key := entry.toList.takeWhile (· != '=')
  match entry.toList.dropWhile (· != '=') with
  | _ :: value => if key.isEmpty then none else some (String.ofList key, String.ofList value)
  | [] => none

/-- The pairs of all entries, or the first entry that is none. -/
def splitEntries (kind : EntryKind) : List String → Except BuildFault (List (String × String))
  | [] => .ok []
  | entry :: rest =>
    match splitEntry entry with
    | none => .error (.invalidKeyValue kind entry)
    | some pair => (splitEntries kind rest).map (pair :: ·)

/-- The references of all tags, or the first tag that is none. -/
def parseTags : List String → Except BuildFault (List Reference)
  | [] => .ok []
  | tag :: rest =>
    match Reference.parseTagged tag with
    | .error defect => .error (.invalidReference tag defect)
    | .ok r => (parseTags rest).map (r :: ·)

/-- The list without what came before in it. -/
def withoutRepeats (xs : List String) : List String :=
  xs.foldl (fun kept x => if kept.contains x then kept else kept ++ [x]) []

/-- The platforms to build for: those asked for, or the one at hand. -/
def platformsOr (hostPlatform : String) (asked : List String) : List String :=
  match withoutRepeats asked with
  | [] => [hostPlatform]
  | platforms => platforms

/-- The default recipe inside the context. -/
def defaultRecipeIn (t : FileTree) (contextDir : Path) : Except BuildFault Path :=
  match t.joinWithin contextDir ⟨Context.defaultRecipe⟩ with
  | .ok p => .ok p
  | .error f => .error (.recipePath (.escape f))

/-- The recipe that was named, or the default one. -/
def recipeIn (t : FileTree) (o : BuildOptions) : Except BuildFault Path :=
  match o.recipe with
  | some p => if p.isEmpty then defaultRecipeIn t o.contextDir else .ok p
  | none => defaultRecipeIn t o.contextDir

/-- Checks the options. -/
def build (t : FileTree) (hostPlatform : String) (o : BuildOptions) :
    Except BuildFault BuildRequest := do
  if o.tags.isEmpty then throw .missingTags
  let tags ← parseTags o.tags
  let recipePath ← o.recipeIn t
  let buildArgs ← splitEntries .buildArg o.buildArgs
  let labels ← splitEntries .label o.labels
  return {
    recipePath := recipePath
    contextDir := o.contextDir
    tags := tags
    target := o.target
    platforms := platformsOr hostPlatform o.platforms
    buildArgs := .ofList buildArgs
    labels := .ofList labels
    cacheDisabled := o.noCache }

end BuildOptions
end ImageBuild
