import ImageBuild.Context.Materialize

/-!
# `ImageBuild.Context.Staged`: sources with their storage

A build first stages its sources: storage for what standard input will bring exists before
anything is read. The read that is owed then fills it; it knows only paths, so it can go on when
the staging is gone. `BuildSources` are the finished sources, and closing them removes the
storage.
-/

set_option autoImplicit false

namespace ImageBuild.Context

/-- Checked sources, with storage for the one that standard input brings. -/
structure StagedSources where
  recipe : RecipeSource
  contextDir : Path
  stagedContext : Option Path
  stagedRecipe : Option Path
  deriving DecidableEq, Repr

/-- The read of standard input that staged sources wait for. -/
inductive StdinRead
  | context (root : Path) (declared : RecipeSource)
  | recipe (path : Path)
  deriving DecidableEq, Repr

/-- Sources in local files. No recipe path means that the context is searched for the default
one. -/
structure BuildSources where
  contextDir : Path
  recipe : Option Path
  stagedContext : Option Path
  stagedRecipe : Option Path
  deriving DecidableEq, Repr

namespace StdinRead

/-- What the read fills. -/
def destination : StdinRead → Path
  | .context root _ => root
  | .recipe path => path

/-- Reads all of standard input. The answer is where a recipe was stored that came in place of a
context. -/
def run (t : FileTree) (read : StdinRead) (s : Stream) : Changed Fault (Option Path) :=
  match read with
  | .context root declared => fillContext t root declared s
  | .recipe path =>
    match fillRecipe t path s with
    | (.ok (), t') => (.ok none, t')
    | (.error f, t') => (.error f, t')

end StdinRead

namespace StagedSources

/-- Refuses standard input for both sources, then makes storage for the one that reads it. -/
def stage (t : FileTree) (temporary : Path) (recipe : RecipeSource) (context : ContextSource) :
    Changed Fault StagedSources :=
  match context, recipe with
  | .stdin, .stdin => (.error .stdinConflict, t)
  | .stdin, _ =>
    match makeStorage t temporary .contextDirectory with
    | (.error f, t') => (.error f, t')
    | (.ok root, t') => (.ok ⟨recipe, root, some root, none⟩, t')
  | .directory dir, .stdin =>
    match makeStorage t temporary .recipeFile with
    | (.error f, t') => (.error f, t')
    | (.ok p, t') => (.ok ⟨recipe, dir, none, some p⟩, t')
  | .directory dir, _ => (.ok ⟨recipe, dir, none, none⟩, t)

/-- The read of standard input that is still owed. -/
def stdinRead (s : StagedSources) : Option StdinRead :=
  match s.stagedContext, s.stagedRecipe with
  | some root, _ => some (.context root s.recipe)
  | none, some p => some (.recipe p)
  | none, none => none

/-- The finished sources, given where the read stored a recipe. -/
def finish (s : StagedSources) (stored : Option Path) : BuildSources where
  contextDir := s.contextDir
  recipe :=
    match stored, s.stagedRecipe, s.recipe with
    | some p, _, _ => some p
    | none, some p, _ => some p
    | none, none, .path p => some p
    | none, none, _ => none
  stagedContext := s.stagedContext
  stagedRecipe := s.stagedRecipe

/-- Removes the storage. -/
def drop (t : FileTree) (s : StagedSources) : FileTree :=
  let t := (s.stagedContext.map (discard t)).getD t
  (s.stagedRecipe.map (discard t)).getD t

end StagedSources

namespace BuildSources

/-- Whether temporary storage backs the sources. -/
def isMaterialized (s : BuildSources) : Bool := s.stagedContext.isSome || s.stagedRecipe.isSome

/-- Removes the storage and tells of the first failure. -/
def close (t : FileTree) (s : BuildSources) : Changed FileFault Unit :=
  let remove (t : FileTree) : Option Path → Changed FileFault Unit
    | some p => t.remove p
    | none => (.ok (), t)
  let (first, t₁) := remove t s.stagedContext
  let (second, t₂) := remove t₁ s.stagedRecipe
  (match first with
    | .error f => .error f
    | .ok () => second, t₂)

/-- Makes both sources ready, reading standard input for at most one of them. A failure removes
the storage. -/
def prepare (t : FileTree) (temporary : Path) (recipe : RecipeSource) (context : ContextSource)
    (s : Stream) : Changed Fault BuildSources :=
  match StagedSources.stage t temporary recipe context with
  | (.error f, t₁) => (.error f, t₁)
  | (.ok staged, t₁) =>
    match staged.stdinRead with
    | none => (.ok (staged.finish none), t₁)
    | some read =>
      match read.run t₁ s with
      | (.error f, t₂) => (.error f, staged.drop t₂)
      | (.ok stored, t₂) => (.ok (staged.finish stored), t₂)

end BuildSources
end ImageBuild.Context
