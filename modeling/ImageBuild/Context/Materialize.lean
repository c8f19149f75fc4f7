import ImageBuild.Archive.Unpack
import ImageBuild.Context.Source

/-!
# `ImageBuild.Context.Materialize`: turning a stream into files

A context stream is either an archive, which is unpacked, or the recipe itself, which is stored
under the declared name. The name is clamped into the context (`scopedNames`): it is read as if
the context were the root directory. Whatever fails, the temporary storage is removed again, so
a failed `contextFromStream` or `recipeFromStream` leaves the tree as it was.
-/

set_option autoImplicit false

namespace ImageBuild.Context

/-! ### Temporary storage -/

/-- The letters that make temporary names differ. -/
def suffixLetters : List UInt8 := Utf8.encode "0123456789abcdefghijklmnopqrstuvwxyz"

/-- The number `n` in `digits` of those letters. -/
def suffix : (digits : Nat) → (n : Nat) → Bytes
  | 0, _ => []
  | digits + 1, n => suffix digits (n / 36) ++ [suffixLetters.getD (n % 36) 0x30]

/-- What the names of a part's storage start with. -/
def StoredPart.stem : StoredPart → String
  | .contextDirectory => "kiln-build-context-"
  | .recipeFile => "kiln-build-recipe-"

/-- The `n`-th candidate for a part's storage in the temporary directory. -/
def StoredPart.candidate (part : StoredPart) (t : FileTree) (temporary : Path) (n : Nat) : Path :=
  let here : Path := ⟨slash :: (Path.ofNames t.workdir).bytes⟩
  (here.join temporary).join ⟨Utf8.encode part.stem ++ suffix 6 n⟩

/-- The first candidate that names nothing yet; among one more candidates than there are nodes
there is one. -/
def StoredPart.freshPath (part : StoredPart) (t : FileTree) (temporary : Path) : Path :=
  let candidates := (List.range (t.nodes.length + 1)).map (part.candidate t temporary)
  (candidates.find? fun p => !(t.find false p).isOk).getD (part.candidate t temporary 0)

/-- Makes an empty directory or file for a part and answers its path. -/
def makeStorage (t : FileTree) (temporary : Path) (part : StoredPart) : Changed Fault Path :=
  let p := part.freshPath t temporary
  let made := match part with
    | .contextDirectory => t.makeDirectory p 0o700
    | .recipeFile => t.makeFile p
  match made with
  | (.ok (), t') => (.ok p, t')
  | (.error f, t') => (.error (.tempStorage part p f), t')

/-- Removes storage; what cannot be removed stays. -/
def discard (t : FileTree) (p : Path) : FileTree := (t.remove p).2

/-! ### Filling it -/

/-- The names that a declared recipe path stands for when the context is taken for the root:
leading roots count for nothing and `..` never climbs. -/
def scopedNames (declared : Path) : List Name :=
  let names := declared.components.foldl (fun names c =>
    match c with
    | .normal name => names ++ [name]
    | .parent => names.dropLast
    | .root | .here => names) []
  if names.isEmpty then [defaultRecipe] else names

/-- The name under which a context stream that is a recipe is stored. -/
def scopedRecipeName (declared : Path) : Path := Path.ofNames (scopedNames declared)

/-- Stores a stream in a file, after making the directories above it. -/
def storeStream (t : FileTree) (p : Path) (s : Stream) : Changed Fault Unit :=
  let parents : Changed FileFault Unit :=
    match p.parent? with
    | some up => t.createAll up
    | none => (.ok (), t)
  match parents with
  | (.error f, t₁) => (.error (.write p (.file f)), t₁)
  | (.ok (), t₁) =>
    match t₁.openEmpty p 0o666 with
    | (.error f, t₂) => (.error (.write p (.file f)), t₂)
    | (.ok loc, t₂) =>
      let t₃ := t₂.fill loc s.bytes
      if s.broken then (.error (.write p (.stream .broken)), t₃) else (.ok (), t₃)

/-- Unpacks a stream into the directory `root`, or stores it there as the recipe; in the second
case the answer is the recipe's path. -/
def fillContext (t : FileTree) (root : Path) (recipe : RecipeSource) (s : Stream) :
    Changed Fault (Option Path) :=
  match s.readUpTo Archive.headerWindow with
  | .error f => (.error (.peek f), t)
  | .ok (front, rest) =>
    let whole := rest.putBack front
    if Archive.isArchive front then
      match Archive.extract t root whole with
      | (.ok _, t') => (.ok none, t')
      | (.error f, t') => (.error (.archive f), t')
    else
      let store (name : Path) : Changed Fault (Option Path) :=
        match t.joinWithin root name with
        | .error f => (.error (.archive (.escape f)), t)
        | .ok p =>
          match storeStream t p whole with
          | (.ok (), t') => (.ok (some p), t')
          | (.error f, t') => (.error f, t')
      match recipe with
      | .stdin => (.error .notAnArchive, t)
      | .default => store ⟨defaultRecipe⟩
      | .path declared => store (scopedRecipeName declared)

/-- Stores a whole stream in the file at `p`. Nothing is written unless all of it can be read. -/
def fillRecipe (t : FileTree) (p : Path) (s : Stream) : Changed Fault Unit :=
  if s.broken then (.error (.read .broken), t)
  else
    match t.openEmpty p 0o666 with
    | (.error f, t') => (.error (.write p (.file f)), t')
    | (.ok loc, t') => (.ok (), t'.fill loc s.bytes)

/-! ### Materialized sources -/

/-- A build context in a temporary directory. -/
structure MaterializedContext where
  root : Path
  /-- Where the stream was stored when it was a recipe. -/
  recipe : Option Path
  deriving DecidableEq, Repr

/-- Turns a stream into a build context. -/
def contextFromStream (t : FileTree) (temporary : Path) (recipe : RecipeSource) (s : Stream) :
    Changed Fault MaterializedContext :=
  match makeStorage t temporary .contextDirectory with
  | (.error f, t₁) => (.error f, t₁)
  | (.ok root, t₁) =>
    match fillContext t₁ root recipe s with
    | (.error f, t₂) => (.error f, discard t₂ root)
    | (.ok stored, t₂) => (.ok ⟨root, stored⟩, t₂)

/-- Stores a whole stream in a new temporary recipe file. -/
def recipeFromStream (t : FileTree) (temporary : Path) (s : Stream) : Changed Fault Path :=
  match makeStorage t temporary .recipeFile with
  | (.error f, t₁) => (.error f, t₁)
  | (.ok p, t₁) =>
    match fillRecipe t₁ p s with
    | (.error f, t₂) => (.error f, discard t₂ p)
    | (.ok (), t₂) => (.ok p, t₂)

end ImageBuild.Context
