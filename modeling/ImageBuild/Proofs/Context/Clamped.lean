import ImageBuild.Proofs.Context.Verbatim
import ImageBuild.Proofs.Tree.Lexical

/-!
# `ImageBuild.Proofs.Context.Clamped`: declared names stay in the context

Two readings of `..` meet where a stream is stored as the recipe. `scopedNames` reads the declared
path as if the context were the root directory, where `..` stays. `joinWithin` refuses a path that
climbs. What the first one makes of a path has no `..` left, so the second one never refuses it.

* `scopedNames_eq`: the names are those that `Path.lexicalNames` reads from the last component
  back.
* `joinsBelow_ofNames`: plain names join strictly below a root in which there is no link.
* `scopedRecipeName_clamped`: what a declared path becomes, where it is joined to, and that a
  stream which is no archive does not fail for the path that it is declared as.
-/

set_option autoImplicit false

namespace ImageBuild.Context

open FileTree

variable {t t₁ : FileTree} {temporary root p declared : Path} {names : List Name}
  {recipe : RecipeSource}
  {s : Stream}

/-! ### The names of a declared path -/

/-- A declared path stands for its lexical names, or for the default name if there are none. -/
theorem scopedNames_eq (declared : Path) :
    scopedNames declared =
      if declared.lexicalNames = [] then [defaultRecipe] else declared.lexicalNames := by
  have hfold : scopedNames declared =
      if (declared.components.foldl Component.appliedTo []).isEmpty then [defaultRecipe]
      else declared.components.foldl Component.appliedTo [] := rfl
  rw [hfold, Component.foldl_appliedTo, Component.namesAfter_nil]
  simp only [List.isEmpty_iff]
  rfl

/-- Names that are read again as a declared path stand for themselves. -/
theorem scopedNames_ofNames (hnames : ∀ n ∈ names, IsName n) (hne : names ≠ []) :
    scopedNames (.ofNames names) = names := by
  rw [scopedNames_eq, Path.lexicalNames_ofNames hnames, if_neg hne]

/-! ### Joined onto a root -/

/-- A name joins onto a root strictly below it: it is not refused, the joined path has the
components of the root and these names behind them, and what it leads to has these names below the
directory of the root. -/
structure JoinsBelow (t : FileTree) (root name : Path) (names : List Name) : Prop where
  join : t.joinWithin root name = .ok (root.join name)
  components : (root.join name).components = root.components ++ names.map .normal
  loc : ∀ follow spot, t.walk follow (root.join name) = .ok spot →
    ∃ D, t.directoryAt? root = some D ∧ spot.loc = D ++ names

/-- Plain names join below a root without links. The root need not be there. -/
theorem joinsBelow_ofNames (hfree : ∀ D, t.directoryAt? root = some D → t.LinkFree D)
    (hnames : ∀ n ∈ names, IsName n ∧ 0 ∉ n) (hne : names ≠ []) :
    JoinsBelow t root (.ofNames names) names where
  join := by
    have hisName := fun n hn => (hnames n hn).1
    refine ((joinWithin_of_linkFree hfree).1 _).mpr ⟨Path.hasNul_ofNames fun n hn =>
      (hnames n hn).2,
      Path.isAbsolute_ofNames hisName, Path.neverClimbs_ofNames hisName, ?_⟩
    rw [Path.lexicalNames_ofNames hisName]
  components := Path.components_join (fun n hn => (hnames n hn).1) hne root
  loc follow spot hw := by
    have hisName := fun n hn => (hnames n hn).1
    obtain ⟨k, D, hD, hwalks⟩ := exists_directoryAt?_of_walk_join hisName hne hw
    exact ⟨D, hD, (hwalks.of_clear hisName ((hfree D hD).clear names)).1⟩

/-- The directory of a context has no link in it when it is new. -/
theorem linkFree_of_makeStorage (hwf : t.WellFormed)
    (hmade : makeStorage t temporary .contextDirectory = (.ok root, t₁)) :
    ∀ D, t₁.directoryAt? root = some D → t₁.LinkFree D := by
  obtain ⟨D, m, hwf₁, hempty, -⟩ := isEmptyDirectory_of_makeStorage hwf hmade
  intro D' hD'
  rw [hempty.receives.denotes] at hD'
  cases hD'
  exact (Archive.Unpacked.refl (m := m) hwf₁ hempty.empty).linkFree ⟨m, hempty.receives.directory⟩

/-! ### Faults of a stream that is no archive -/

/-- Storing a stream fails for nothing but writing. -/
theorem storeStream_ne_archive (f : Archive.Fault) :
    (storeStream t p s).1 ≠ .error (.archive f) := by
  intro h
  unfold storeStream at h
  dsimp only at h
  split at h
  · cases h
  · split at h
    · cases h
    · split at h <;> cases h

/-- A stream that is no archive by its first bytes does not fail as an archive, whatever it is
declared as. -/
theorem fillContext_ne_archive (hraw : Archive.isArchive (s.bytes.take Archive.headerWindow) =
    false) (hfree : ∀ D, t.directoryAt? root = some D → t.LinkFree D)
    (hnul : ∀ declared, recipe = .path declared → declared.hasNul = false) (f : Archive.Fault) :
    (fillContext t root recipe s).1 ≠ .error (.archive f) := by
  intro h
  have hjoin : ∀ names, IsDeclared recipe names →
      t.joinWithin root (.ofNames names) = .ok (root.join (.ofNames names)) :=
        fun names hdeclared =>
    (joinsBelow_ofNames hfree hdeclared.isName hdeclared.ne_nil).join
  unfold fillContext at h
  split at h
  · cases h
  · next front rest hread =>
    rw [(Stream.readUpTo_spec hread).1, hraw] at h
    -- The stream is stored raw, so the archive reader has no part in it.
    cases recipe with
    | stdin => cases h
    | default =>
      have hname : (⟨defaultRecipe⟩ : Path) = .ofNames [defaultRecipe] := by
        rw [Path.ofNames, List.intercalate_singleton]
      dsimp only at h
      rw [hname, hjoin _ .default] at h
      simp only [Bool.false_eq_true, if_false] at h
      split at h
      · cases h
      · next hstore =>
        cases h
        exact storeStream_ne_archive f (congrArg Prod.fst hstore)
    | path declared =>
      dsimp only [scopedRecipeName] at h
      rw [hjoin _ (.path (hnul declared rfl))] at h
      simp only [Bool.false_eq_true, if_false] at h
      split at h
      · cases h
      · next hstore =>
        cases h
        exact storeStream_ne_archive f (congrArg Prod.fst hstore)

/-- The same goes for the whole run, in a directory that was made for it. -/
theorem contextFromStream_ne_archive (hwf : t.WellFormed)
    (hraw : Archive.isArchive (s.bytes.take Archive.headerWindow) = false)
    (hnul : ∀ declared, recipe = .path declared → declared.hasNul = false) (f : Archive.Fault) :
    (contextFromStream t temporary recipe s).1 ≠ .error (.archive f) := by
  intro h
  unfold contextFromStream at h
  split at h
  · next f' t' hmade =>
    -- The directory itself cannot be made.
    unfold makeStorage at hmade
    dsimp only at hmade
    split at hmade <;> cases hmade
    cases h
  · next root t' hmade =>
    have hfill := fillContext_ne_archive hraw (linkFree_of_makeStorage hwf hmade) hnul f
    split at h
    · next hfault =>
      cases h
      exact hfill (congrArg Prod.fst hfault)
    · cases h

/-! ### The declared name -/

/-- The names of a declared path as it is read below a context. -/
structure IsClamped (declared name : Path) (names : List Name) : Prop where
  ne_nil : names ≠ []
  components : name.components = names.map .normal
  names_eq : names = if declared.lexicalNames = [] then [defaultRecipe] else declared.lexicalNames
  /-- In a tree without links the system finds these names behind its root. -/
  loc : ∀ (t : FileTree) follow spot, t.LinkFree [] →
    t.walk follow ⟨slash :: declared.bytes⟩ = .ok spot → spot.loc = declared.lexicalNames
  again : scopedRecipeName name = name

/-- The scoped name of a recipe is clamped. -/
theorem isClamped_scopedRecipeName (hnul : declared.hasNul = false) :
    IsClamped declared (scopedRecipeName declared) (scopedNames declared) := by
  have hdeclared : IsDeclared (.path declared) (scopedNames declared) := .path hnul
  have hnames := fun n hn => (hdeclared.isName n hn).1
  refine ⟨hdeclared.ne_nil, Path.components_ofNames hnames, scopedNames_eq declared,
    fun t follow spot hfree hw => loc_of_walk_root hfree hw, ?_⟩
  exact congrArg Path.ofNames (scopedNames_ofNames hnames hdeclared.ne_nil)

/-- A declared path without a NUL byte is clamped into the context. It stands for names of which
there is at least one, those that the path has when it is read from the root, or the default name.
They join strictly below every root without links, such as one that is made for a context, and so
a stream that is no archive does not fail for the path that it is declared as. -/
theorem scopedRecipeName_clamped (hnul : declared.hasNul = false) :
    ∃ names : List Name, IsClamped declared (scopedRecipeName declared) names ∧
      (∀ t root, (∀ D, t.directoryAt? root = some D → t.LinkFree D) →
        JoinsBelow t root (scopedRecipeName declared) names) ∧
      (∀ t t₁ temporary root, t.WellFormed →
        makeStorage t temporary .contextDirectory = (.ok root, t₁) →
        JoinsBelow t₁ root (scopedRecipeName declared) names) ∧
      ∀ t temporary s f, t.WellFormed →
        Archive.isArchive (s.bytes.take Archive.headerWindow) = false →
        ∀ recipe ∈ [RecipeSource.path declared, .default, .stdin],
          (contextFromStream t temporary recipe s).1 ≠ .error (.archive f) := by
  have hdeclared : IsDeclared (.path declared) (scopedNames declared) := .path hnul
  refine ⟨scopedNames declared, isClamped_scopedRecipeName hnul, fun t root hfree => ?_,
    fun t t₁ temporary root hwf hmade => ?_, fun t temporary s f hwf hraw recipe hrecipe => ?_⟩
  · exact joinsBelow_ofNames hfree hdeclared.isName hdeclared.ne_nil
  · exact joinsBelow_ofNames (linkFree_of_makeStorage hwf hmade) hdeclared.isName hdeclared.ne_nil
  · refine contextFromStream_ne_archive hwf hraw (fun p hp => ?_) f
    -- Of these sources only the declared path has a path.
    rw [hp] at hrecipe
    obtain rfl : p = declared := by simpa using hrecipe
    exact hnul

/-- What is declared as `../a/../b/c` is stored as `b/c`, which joins below the directory that is
made for the context. -/
theorem scopedRecipeName_clamped_climbing :
    (Path.ofString "../a/../b/c").hasNul = false ∧
    scopedRecipeName (.ofString "../a/../b/c") = .ofString "b/c" ∧
    ∃ names, IsClamped (.ofString "../a/../b/c") (.ofString "b/c") names ∧
      JoinsBelow stagedTree stagedRoot (.ofString "b/c") names := by
  have hnul : (Path.ofString "../a/../b/c").hasNul = false := by cbv
  have hname : scopedRecipeName (.ofString "../a/../b/c") = .ofString "b/c" := by cbv
  obtain ⟨names, hclamped, -, hjoins, -⟩ := scopedRecipeName_clamped hnul
  rw [hname] at hclamped hjoins
  exact ⟨hnul, hname, names, hclamped, hjoins _ _ _ _ (by decide) makeStorage_sharedTree⟩

/-- Where all names are taken back, the default name is left. -/
example : scopedRecipeName (.ofString "/a/../..") = .ofString "Dockerfile" := by cbv

end ImageBuild.Context
