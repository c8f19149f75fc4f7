import ImageBuild.Command.Run
import ImageBuild.Proofs.Context.Materialized

/-!
# `ImageBuild.Proofs.Command.Cleanup`: what a build leaves behind

A build that reads standard input makes storage for it, fills that and removes it at the end.
`IsHeld` says what the tree is like in between: the storage stands at a spot that was vacant, and
all that was done was done within it. This is so from the making on (`isHeld_of_makeStorage`),
whatever the stream holds, so the sources are ready with storage behind them or nothing was done
(`readSources_cases`).

Later stages add to the tree only what the checks of the host make, the state directory
(`solve_addsDirectories`). So removing the storage leaves a tree with these directories and
nothing else that is new: `build_cleansUp`.
-/

set_option autoImplicit false

namespace ImageBuild.Command

open Context FileTree

variable {t t₁ t₂ : FileTree} {temporary p q : Path} {dir : Location} {name : Name} {w : World}
  {config : EngineConfig} {args : BuildArguments}

/-! ### Storage -/

/-- The storage at a path took a spot that was vacant in the tree `t`, and nothing was done
elsewhere. -/
structure IsHeld (t t' : FileTree) (p : Path) (dir : Location) (name : Name) : Prop where
  spot : t.walk false p = .ok (.vacant dir name)
  canAlter : t.canAlter dir = true
  within : ChangesWithin (dir ++ [name]) t t'
  taken : ∃ n, t'.lookup (dir ++ [name]) = some n

/-- Storage is held from its making on, as long as what is done is done within it. -/
theorem isHeld_of_makeStorage {part : StoredPart}
    (h : makeStorage t temporary part = (.ok p, t₁)) :
    ∃ dir name n, IsNewStorage part n ∧ t₁.lookup (dir ++ [name]) = some n ∧
      IsHeld t t₁ p dir name := by
  obtain ⟨dir, name, n, hwalk, halter, hnew, hfits, rfl⟩ := makeStorage_eq_ok h
  exact ⟨dir, name, n, hnew, hfits.lookup_set_self, hwalk, halter,
    .put .refl (List.prefix_refl _) hfits, n, hfits.lookup_set_self⟩

/-- What is held is still held after changes inside it. -/
theorem IsHeld.later (h : IsHeld t t₁ p dir name)
    (hwithin : ChangesWithin (dir ++ [name]) t₁ t₂) :
    IsHeld t t₂ p dir name := by
  obtain ⟨n, hn⟩ := h.taken
  exact ⟨h.spot, h.canAlter, h.within.trans hwithin, hwithin.grows.exists_lookup hn⟩

/-- Removing storage after directories were made leaves those, and its path names nothing. -/
theorem IsHeld.discard_later (h : IsHeld t t₁ p dir name) (hwf : t.WellFormed)
    (hadds : t₁.AddsDirectories t₂) :
    t.AddsDirectories (discard t₂ p) ∧ (discard t₂ p).find false p = .error .notFound := by
  obtain ⟨n, hn⟩ := h.taken
  obtain ⟨n', hn'⟩ := hadds.grows.exists_lookup hn
  have hremove := (remove_of_made h.spot h.canAlter (h.within.grows.trans hadds.grows) hn').2
  have hvacant := (walk_eq_ok_iff.mp h.spot).2.vacant.1
  have hleft := h.within.addsDirectories_erase hwf hvacant hadds
  have hgone : (t₂.erase (dir ++ [name])).lookup (dir ++ [name]) = none := by
    rw [lookup_erase_of_ne_nil t₂ (by simp), if_pos (List.prefix_refl _)]
  unfold Context.discard
  rw [hremove]
  exact ⟨hleft, hleft.grows.find_of_vacant h.spot hgone⟩

/-- Removing storage at once leaves the tree as it was before the making. -/
theorem IsHeld.discard_eq (h : IsHeld t t₁ p dir name) (hwf : t.WellFormed) :
    discard t₁ p = t := by
  obtain ⟨n, hn⟩ := h.taken
  have hremove := (remove_of_made h.spot h.canAlter h.within.grows hn).2
  have hvacant := (walk_eq_ok_iff.mp h.spot).2.vacant.1
  unfold Context.discard
  rw [hremove, h.within.erase_eq, hwf.erase_eq_self hvacant]

/-! ### Sources -/

/-- One path stands behind the sources, as their context or as their recipe. -/
inductive IsOnly (p : Path) : StoredPart → Option Path → Option Path → Prop
  | context : IsOnly p .contextDirectory (some p) none
  | recipe : IsOnly p .recipeFile none (some p)

/-- The only part that is stored is the one there is. -/
theorem IsOnly.eq_of_or {part : StoredPart} {a b : Option Path} (h : IsOnly p part a b)
    (hq : a = some q ∨ b = some q) : q = p := by
  cases h <;> simp_all

/-- The part that a stage makes storage for, if it makes any: its storage stands behind the
sources from then on. -/
theorem stage_cases (t : FileTree) (temporary : Path) (recipe : RecipeSource)
    (context : ContextSource) :
    (∃ f, StagedSources.stage t temporary recipe context = (.error f, t)) ∨
    (∃ staged, StagedSources.stage t temporary recipe context = (.ok staged, t) ∧
      staged.stagedContext = none ∧ staged.stagedRecipe = none) ∨
    ∃ staged part p t₁, StagedSources.stage t temporary recipe context = (.ok staged, t₁) ∧
      makeStorage t temporary part = (.ok p, t₁) ∧
      IsOnly p part staged.stagedContext staged.stagedRecipe := by
  -- At most one of the two is read from standard input, and that one gets storage.
  cases context with
  | stdin =>
    cases recipe with
    | stdin => exact Or.inl ⟨_, rfl⟩
    | default | path =>
      unfold StagedSources.stage
      dsimp only
      rcases hmake : makeStorage t temporary .contextDirectory with ⟨f | p, t₁⟩
      · obtain rfl := tree_of_makeStorage_error hmake
        exact Or.inl ⟨f, rfl⟩
      · exact Or.inr (Or.inr ⟨_, .contextDirectory, p, t₁, rfl, hmake, .context⟩)
  | directory source =>
    cases recipe with
    | stdin =>
      unfold StagedSources.stage
      dsimp only
      rcases hmake : makeStorage t temporary .recipeFile with ⟨f | p, t₁⟩
      · obtain rfl := tree_of_makeStorage_error hmake
        exact Or.inl ⟨f, rfl⟩
      · exact Or.inr (Or.inr ⟨_, .recipeFile, p, t₁, rfl, hmake, .recipe⟩)
    | default | path => exact Or.inr (Or.inl ⟨_, rfl, rfl, rfl⟩)

/-- The read that staged sources wait for fills their storage and does nothing elsewhere. -/
theorem isHeld_run (hwf : t.WellFormed) {part : StoredPart} {staged : StagedSources}
    (hmake : makeStorage t temporary part = (.ok p, t₁))
    (honly : IsOnly p part staged.stagedContext staged.stagedRecipe) :
    ∃ read dir name, staged.stdinRead = some read ∧
      ∀ s, IsHeld t (read.run t₁ s).2 p dir name := by
  obtain ⟨dir, name, n, hnew, hn, hheld⟩ := isHeld_of_makeStorage hmake
  have hwf₁ := hheld.within.wellFormed hwf
  obtain ⟨recipe, contextDir, stagedContext, stagedRecipe⟩ := staged
  cases honly with
  | context =>
    obtain ⟨m, rfl⟩ := hnew
    have hD := directoryAt?_of_made hheld.spot hheld.within.grows hn
    refine ⟨.context p recipe, dir, name, rfl, ?_⟩
    intro s
    exact hheld.later (fillContext_within hwf₁ hD recipe s)
  | recipe =>
    obtain rfl := hnew
    obtain ⟨htext, hwalks⟩ := walk_eq_ok_iff.mp hheld.spot
    have hthere := hwalks.follow_of_vacant.file_of_made hheld.within.grows hn
    rw [← hheld.within.grows.workdir] at hthere
    refine ⟨.recipe p, dir, name, rfl, ?_⟩
    intro s
    have hfilled := (fillRecipe_within hwf₁ (walk_eq_ok_iff.mpr ⟨htext, hthere⟩) s).1
    have htree : ((StdinRead.recipe p).run t₁ s).2 = (fillRecipe t₁ p s).2 := by
      unfold StdinRead.run
      dsimp only
      rcases fillRecipe t₁ p s with ⟨_ | _, t⟩ <;> rfl
    rw [htree]
    exact hheld.later hfilled

/-- A build has storage made at a path, for what standard input will bring. -/
def MakesStorage (w : World) (args : BuildArguments) (p : Path) : Prop :=
  args.tags ≠ [] ∧ ∃ context staged t, ContextSource.ofString args.path = .ok context ∧
    StagedSources.stage w.tree (temporaryDirectory w.env) (.ofString args.file) context =
      (.ok staged, t) ∧
    (staged.stagedContext = some p ∨ staged.stagedRecipe = some p)

/-- Dropping staged sources removes the path behind them. -/
theorem drop_eq {part : StoredPart} {staged : StagedSources}
    (h : IsOnly p part staged.stagedContext staged.stagedRecipe) (t : FileTree) :
    staged.drop t = discard t p := by
  obtain ⟨recipe, contextDir, stagedContext, stagedRecipe⟩ := staged
  cases h with
  | context | recipe => rfl

/-- Closing finished sources removes the path behind them. -/
theorem tree_close {part : StoredPart} {sources : BuildSources}
    (h : IsOnly p part sources.stagedContext sources.stagedRecipe) (t : FileTree) :
    (sources.close t).2 = discard t p := by
  obtain ⟨contextDir, recipe, stagedContext, stagedRecipe⟩ := sources
  cases h with
  | context | recipe => rfl

/-- Sources are not ready and nothing was done, or they are ready and nothing was done, or they
are ready with storage behind them that only the read of standard input has filled. -/
theorem readSources_cases (hwf : w.tree.WellFormed) (hread : w.interrupt ≠ some .reading)
    (args : BuildArguments) :
    (∃ report, readSources w args = (.error report, w.tree)) ∨
    (∃ sources, readSources w args = (.ok sources, w.tree) ∧ sources.stagedContext = none ∧
      sources.stagedRecipe = none ∧ ∀ p, ¬ MakesStorage w args p) ∨
    ∃ sources t part p dir name, readSources w args = (.ok sources, t) ∧
      IsOnly p part sources.stagedContext sources.stagedRecipe ∧ IsHeld w.tree t p dir name ∧
      ∀ q, MakesStorage w args q → q = p := by
  unfold readSources
  cases hcontext : ContextSource.ofString args.path with
  | error f => exact Or.inl ⟨_, rfl⟩
  | ok context =>
    -- There is one staging, so whatever storage is said to be made is that of these sources.
    have hsame : ∀ {context' : ContextSource} {staged staged' : StagedSources} {t t' : FileTree},
        ContextSource.ofString args.path = .ok context' →
        StagedSources.stage w.tree (temporaryDirectory w.env) (.ofString args.file) context' =
          (.ok staged', t') →
        StagedSources.stage w.tree (temporaryDirectory w.env) (.ofString args.file) context =
          (.ok staged, t) → staged' = staged ∧ t' = t := by
      intro context' staged staged' t t' hcontext' hstage' hstage
      cases hcontext.symm.trans hcontext'
      cases hstage.symm.trans hstage'
      exact ⟨rfl, rfl⟩
    dsimp only
    rcases stage_cases w.tree (temporaryDirectory w.env) (.ofString args.file) context with
      ⟨f, hstage⟩ | ⟨staged, hstage, hnone, hnone'⟩ | ⟨staged, part, p, t₁, hstage, hmake, honly⟩
    · rw [hstage]
      exact Or.inl ⟨_, rfl⟩
    · refine Or.inr (Or.inl ⟨staged.finish none, ?_, hnone, hnone', ?_⟩)
      · rw [hstage]
        simp [StagedSources.stdinRead, hnone, hnone']
      · rintro p ⟨-, context', staged', t', hcontext', hstage', hp⟩
        obtain ⟨rfl, -⟩ := hsame hcontext' hstage' hstage
        simp [hnone, hnone'] at hp
    · obtain ⟨read, dir, name, hstdin, hheld⟩ := isHeld_run hwf hmake honly
      have hfilled := hheld w.stdin
      rw [hstage]
      dsimp only
      rw [hstdin]
      dsimp only
      rw [if_neg hread]
      generalize read.run t₁ w.stdin = filled at hfilled
      rcases filled with ⟨f | stored, t₂⟩
      · -- What the read has done up to its failure is removed with the storage.
        dsimp only
        rw [drop_eq honly, hfilled.discard_eq hwf]
        exact Or.inl ⟨_, rfl⟩
      · refine Or.inr (Or.inr ⟨staged.finish stored, t₂, part, p, dir, name, rfl, honly,
          hfilled, ?_⟩)
        rintro q ⟨-, context', staged', t', hcontext', hstage', hq⟩
        obtain ⟨rfl, -⟩ := hsame hcontext' hstage' hstage
        exact honly.eq_of_or hq

/-! ### The later stages -/

/-- The checks of the host make directories. -/
theorem preflight_addsDirectories (hwf : t.WellFormed) (env : Config.Environment)
    (config : EngineConfig) : t.AddsDirectories (preflight t env config).2 := by
  unfold preflight
  dsimp only
  split
  · exact .refl hwf
  · have hmade := createAll_adds hwf config.stateDir
    generalize t.createAll config.stateDir = made at hmade
    rcases made with ⟨f | _, t₁⟩ <;> exact hmade

/-- The engine leaves the tree alone. -/
theorem tree_solveWith (w : World) (config : EngineConfig) (t : FileTree) (r : BuildRequest) :
    (solveWith w config t r).tree = t := by
  unfold solveWith
  dsimp only
  split
  · rfl
  · split <;> rfl

/-- A solve adds directories to the tree, and nothing else stays of it. -/
theorem solve_addsDirectories (hwf : t.WellFormed) (w : World) (config : EngineConfig)
    (args : BuildArguments) (sources : BuildSources) :
    t.AddsDirectories (solve w config args sources t).tree := by
  unfold solve
  split
  · exact .refl hwf
  · have hchecked := preflight_addsDirectories hwf w.env config
    generalize preflight t w.env config = checked at hchecked
    rcases checked with ⟨f | ready, t₁⟩
    · exact hchecked
    · dsimp only
      rw [tree_solveWith]
      exact hchecked

/-- Nothing of a build is left but directories that were made for the engine: what was there is as
it was, no file is new, and the storage that was made for standard input is gone. -/
structure CleansUp (w : World) (args : BuildArguments) (t : FileTree) : Prop where
  adds : w.tree.AddsDirectories t
  gone : ∀ p, MakesStorage w args p → t.find false p = .error .notFound

/-- Storage that a build makes has a path that named nothing before. -/
theorem MakesStorage.find_eq (h : MakesStorage w args p) :
    w.tree.find false p = .error .notFound := by
  obtain ⟨-, context, staged, t, -, hstage, hp⟩ := h
  rcases stage_cases w.tree (temporaryDirectory w.env) (.ofString args.file) context with
    ⟨f, heq⟩ | ⟨staged', heq, hnone, hnone'⟩ | ⟨staged', part, q, t₁, heq, hmake, honly⟩
  · rw [hstage] at heq
    cases heq
  · rw [hstage] at heq
    cases heq
    simp [hnone, hnone'] at hp
  · rw [hstage] at heq
    cases heq
    obtain ⟨dir, name, n, -, -, hheld⟩ := isHeld_of_makeStorage hmake
    obtain rfl := honly.eq_of_or hp
    exact GrowsInto.find_of_vacant (.refl w.tree) hheld.spot
      (walk_eq_ok_iff.mp hheld.spot).2.vacant.1

/-- A build that did nothing has nothing to clean up. -/
theorem cleansUp_refl (hwf : w.tree.WellFormed) (args : BuildArguments) :
    CleansUp w args w.tree :=
  ⟨.refl hwf, fun _ h => h.find_eq⟩

/-- Every build cleans up, whatever becomes of it. -/
theorem build_cleansUp (hwf : w.tree.WellFormed) (hread : w.interrupt ≠ some .reading)
    (config : EngineConfig) (args : BuildArguments) :
    CleansUp w args (build w config args).tree := by
  unfold build
  split
  · exact cleansUp_refl hwf args
  · -- Either no storage was made, or there is one place, which the close discards.
    rcases readSources_cases hwf hread args with
      ⟨report, heq⟩ | ⟨sources, heq, hnone, hnone', hnothing⟩ |
        ⟨sources, t, part, p, dir, name, heq, honly, hheld, hsame⟩
    · rw [heq]
      exact cleansUp_refl hwf args
    · rw [heq]
      have hadds := solve_addsDirectories hwf w config args sources
      have hclose : ∀ t, (sources.close t).2 = t := by
        intro t
        unfold BuildSources.close
        rw [hnone, hnone']
      dsimp only
      rw [hclose]
      exact ⟨hadds, fun p hp => absurd hp (hnothing p)⟩
    · rw [heq]
      have hadds := solve_addsDirectories (hheld.within.wellFormed hwf) w config args sources
      dsimp only
      rw [tree_close honly]
      obtain ⟨hleft, hgone⟩ := hheld.discard_later hwf hadds
      refine ⟨hleft, fun q hq => ?_⟩
      rw [hsame q hq]
      exact hgone

end ImageBuild.Command
