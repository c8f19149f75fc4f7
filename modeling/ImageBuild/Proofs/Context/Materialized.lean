import ImageBuild.Proofs.Archive.FirstMember
import ImageBuild.Proofs.Context.Staged

/-!
# `ImageBuild.Proofs.Context.Materialized`: storage is all or nothing

Making sources ready first makes storage, an empty directory or file at a path where nothing was
(`makeStorage_cases`), and then fills it from a stream. Whatever the stream holds and wherever it
breaks off, the filling stays within the storage: an archive is unpacked below it, a recipe is
stored under a name that was joined onto it (`fillContext_within`), and a recipe file is opened
where it is (`fillRecipe_within`). `IsStored` says what the tree is like then. Removing the
storage removes all that was done, so a failure can be undone completely, and so can a success
later: `materialization_allOrNothing`.
-/

set_option autoImplicit false

namespace ImageBuild.Context

open Archive FileTree Tar

variable {t t₁ t₂ : FileTree} {temporary p root : Path} {D : Location} {n : Node} {s : Stream}

/-! ### Unpacking -/

/-- Looking into a stream and putting the block back makes no difference to its unpacking. -/
theorem extract_putBack {rest : Stream} {front : Bytes}
    (hread : s.readUpTo headerWindow = .ok (front, rest)) (hlen : front.length = headerWindow)
    (t : FileTree) (root : Path) : extract t root (rest.putBack front) = extract t root s := by
  unfold extract
  rw [hread, Stream.readUpTo_putBack (by decide) hlen rest]

/-- A stream whose first block is an archive's is unpacked, and the context has no recipe of its
own. -/
theorem contextFromStream_of_archive (recipe : RecipeSource)
    (hlen : headerWindow ≤ s.bytes.length)
    (harchive : isArchive (s.bytes.take headerWindow) = true)
    (hmade : makeStorage t temporary .contextDirectory = (.ok root, t₁)) :
    contextFromStream t temporary recipe s =
      match extract t₁ root s with
      | (.ok _, t₂) => (.ok ⟨root, none⟩, t₂)
      | (.error f, t₂) => (.error (.archive f), discard t₂ root) := by
  obtain ⟨rest, hread⟩ := Stream.exists_readUpTo hlen
  unfold contextFromStream fillContext
  rw [hmade]
  dsimp only
  rw [hread]
  dsimp only
  rw [if_pos harchive, extract_putBack hread (length_window_iff.mpr hlen)]
  rcases extract t₁ root s with ⟨f | report, t₂⟩ <;> rfl

/-! ### Filling it -/

/-- A stream is stored in a file that is opened where the tree is, or where the directories above
the file are made. -/
theorem tree_storeStream (t : FileTree) (p : Path) (s : Stream) :
    ∃ t₁, (t₁ = t ∨ ∃ up, p.parent? = some up ∧ t₁ = (t.createAll up).2) ∧
      ((storeStream t p s).2 = t₁ ∨ (storeStream t p s).2 = (t₁.openEmpty p 0o666).2 ∨
        ∃ loc t₂, t₁.openEmpty p 0o666 = (.ok loc, t₂) ∧
          (storeStream t p s).2 = t₂.fill loc s.bytes) := by
  unfold storeStream
  rcases hup : p.parent? with _ | up
  · refine ⟨t, Or.inl rfl, Or.inr ?_⟩
    dsimp only
    rcases t.openEmpty p 0o666 with ⟨f | loc, t₂⟩
    · exact Or.inl rfl
    · refine Or.inr ⟨loc, t₂, rfl, ?_⟩
      dsimp only
      split <;> rfl
  · refine ⟨(t.createAll up).2, Or.inr ⟨up, rfl, rfl⟩, ?_⟩
    dsimp only
    rcases t.createAll up with ⟨f | _, t₁⟩
    · exact Or.inl rfl
    · dsimp only
      rcases t₁.openEmpty p 0o666 with ⟨f | loc, t₂⟩
      · exact Or.inr (Or.inl rfl)
      · refine Or.inr (Or.inr ⟨loc, t₂, rfl, ?_⟩)
        dsimp only
        split <;> rfl

/-- Storing a stream under names that were joined onto a root. -/
theorem storeStream_changesBelow {names : List Name} (hwf : t.WellFormed)
    (hanchored : t.Anchored root) (hchecked : t.Checked root names) (s : Stream) :
    ChangesBelow root t (storeStream t (root.join (.ofNames names)) s).2 := by
  obtain ⟨t₁, hstart, hend⟩ := tree_storeStream t (root.join (.ofNames names)) s
  have hmade : ChangesBelow root t t₁ := by
    rcases hstart with rfl | ⟨up, hup, rfl⟩
    · exact .refl
    · have hp := (isAskedFor_join root names).parent? hchecked.isName hup
      exact createAll_changesBelow hwf hanchored hchecked hp .refl
  obtain ⟨hopened, hinside⟩ := openEmpty_changesBelow hwf hanchored hchecked 0o666 hmade
  rcases hend with heq | heq | ⟨loc, t₂, hopen, heq⟩ <;> rw [heq]
  · exact hmade
  · exact hopened
  · -- What is opened is a file below the root, so this is where the bytes go.
    rw [hopen] at hopened hinside
    obtain ⟨D, m, hD, hloc, hfile⟩ := hinside loc rfl
    rw [fill_eq hfile]
    exact .inside hopened hD hloc (.of_file (hopened.wellFormed hwf) hfile)

/-- Filling a context stays below its root, whatever the stream turns out to be. -/
theorem fillContext_changesBelow (hwf : t.WellFormed) (hanchored : t.Anchored root)
    (recipe : RecipeSource) (s : Stream) :
    ChangesBelow root t (fillContext t root recipe s).2 := by
  unfold fillContext
  cases s.readUpTo Archive.headerWindow with
  | error f => exact .refl
  | ok read =>
    obtain ⟨front, rest⟩ := read
    dsimp only
    split
    · have hunpacked := Archive.extract_changesBelow hwf hanchored (rest.putBack front)
      generalize Archive.extract t root (rest.putBack front) = unpacked at hunpacked
      rcases unpacked with ⟨f | _, t₁⟩ <;> exact hunpacked
    · -- The name is joined onto the root, so that a declared path cannot lead out of it.
      have hstored : ∀ {name p : Path}, t.joinWithin root name = .ok p →
          ChangesBelow root t (storeStream t p (rest.putBack front)).2 := by
        intro name p hjoin
        obtain ⟨names, rfl, hchecked⟩ := Checked.of_joinWithin hwf hjoin
        exact storeStream_changesBelow hwf hanchored hchecked _
      cases recipe with
      | stdin => exact .refl
      | default | path =>
        dsimp only
        split
        · exact .refl
        · next p hjoin =>
          have hp := hstored hjoin
          generalize storeStream t p (rest.putBack front) = stored at hp
          rcases stored with ⟨f | _, t₁⟩ <;> exact hp

/-- Filling a context changes nothing outside its directory. -/
theorem fillContext_within (hwf : t.WellFormed) (hD : t.directoryAt? root = some D)
    (recipe : RecipeSource) (s : Stream) : ChangesWithin D t (fillContext t root recipe s).2 :=
  (fillContext_changesBelow hwf (.of_directoryAt? hD) recipe s).within hD

/-- Filling a recipe file stays within the file, which holds the whole stream if that could be
read. -/
theorem fillRecipe_within (hwf : t.WellFormed) {m : Mode} {content : Bytes}
    (hwalk : t.walk true p = .ok (.node D (.file m content))) (s : Stream) :
    ChangesWithin D t (fillRecipe t p s).2 ∧
      ((fillRecipe t p s).1 = .ok () → (fillRecipe t p s).2.lookup D =
        some (.file m s.bytes)) := by
  unfold fillRecipe
  split
  · exact ⟨.refl, by simp⟩
  · rw [openEmpty_of_file hwalk]
    by_cases hwritable : (Node.file m []).writable = true
    · -- The walk ends at the file itself, so this is what is opened.
      have hfits : t.Fits D (.file m []) :=
        .of_file hwf ((walk_eq_ok_iff.mp hwalk).2.lookup_loc rfl)
      have hagain : (t.set D (.file m [])).Fits D (.file m s.bytes) := hfits.again
      rw [if_pos hwritable]
      dsimp only
      rw [fill_eq hfits.lookup_set_self]
      exact ⟨.put (.put .refl (List.prefix_refl _) hfits) (List.prefix_refl _) hagain,
        fun _ => hagain.lookup_set_self⟩
    · rw [if_neg hwritable]
      exact ⟨.refl, by simp⟩

/-! ### All or nothing -/

/-- The storage at a path, a node at a place where nothing was and all that is below it, is the
only difference between two trees. Removing it brings the first tree back. -/
structure IsStored (t t' : FileTree) (p : Path) (D : Location) (n : Node) : Prop where
  vacant : t.lookup D = none
  found : t'.find false p = .ok (D, n)
  outside : ∀ loc : Location, ¬ D <+: loc → t'.lookup loc = t.lookup loc
  workdir : t'.workdir = t.workdir
  wellFormed : t'.WellFormed
  removed : t'.remove p = (.ok (), t)

/-- A storage that is dropped is gone. -/
theorem IsStored.discard_eq {t' : FileTree} (h : IsStored t t' p D n) : discard t' p = t := by
  rw [discard, h.removed]

/-- Nothing is left of storage that could not be made. -/
theorem tree_of_makeStorage_error {part : StoredPart} {f : Fault}
    (h : makeStorage t temporary part = (.error f, t₁)) : t₁ = t := by
  rcases makeStorage_cases t temporary part with ⟨f', heq⟩ | ⟨p, dir, name, n, -, -, -, -, heq⟩
  · rw [h] at heq
    exact (Prod.ext_iff.mp heq).2
  · rw [h] at heq
    cases heq

/-- New storage is found at its path. Whatever is done within it is all that has changed since
before it was made. -/
theorem isStored_of_makeStorage {part : StoredPart} (hwf : t.WellFormed)
    (h : makeStorage t temporary part = (.ok p, t₁)) :
    ∃ dir name n, IsNewStorage part n ∧ t₁.WellFormed ∧ t₁.lookup (dir ++ [name]) = some n ∧
      t.walk false p = .ok (.vacant dir name) ∧ t.GrowsInto t₁ ∧
      ∀ t₂ n', ChangesWithin (dir ++ [name]) t₁ t₂ → t₂.lookup (dir ++ [name]) = some n' →
        IsStored t t₂ p (dir ++ [name]) n' := by
  obtain ⟨dir, name, n, hwalk, halter, hnew, hfits, rfl⟩ := makeStorage_eq_ok h
  refine ⟨dir, name, n, hnew, hfits.wellFormed hwf, hfits.lookup_set_self, hwalk, hfits.growsInto,
    fun t₂ n' hwithin hn' => ?_⟩
  -- Making the storage is itself done within it.
  have hall : ChangesWithin (dir ++ [name]) t (t.set (dir ++ [name]) n) :=
    .put .refl (List.prefix_refl _) hfits
  have hvacant := (walk_eq_ok_iff.mp hwalk).2.vacant.1
  have hgrows := hfits.growsInto.trans hwithin.grows
  obtain ⟨hfound, hremoved⟩ := remove_of_made hwalk halter hgrows hn'
  rw [hwithin.erase_eq, hall.erase_eq, hwf.erase_eq_self hvacant] at hremoved
  exact ⟨hvacant, hfound, fun loc hout => (hwithin.lookup_eq hout).trans (hall.lookup_eq hout),
    hgrows.workdir, hwithin.wellFormed (hfits.wellFormed hwf), hremoved⟩

/-- A context that is being filled is all that has changed, filled or not. -/
theorem isStored_fillContext (hwf : t.WellFormed)
    (h : makeStorage t temporary .contextDirectory = (.ok root, t₁)) (recipe : RecipeSource)
    (s : Stream) : ∃ D m, IsStored t (fillContext t₁ root recipe s).2 root D (.directory m) := by
  obtain ⟨dir, name, n, ⟨m, rfl⟩, hwf₁, hdir, hwalk, hgrows, hstored⟩ :=
    isStored_of_makeStorage hwf h
  have hD := directoryAt?_of_made hwalk hgrows hdir
  -- The directory is where storage was made, so what is done below it is done within the storage.
  have hwithin := fillContext_within hwf₁ hD recipe s
  exact ⟨_, m, hstored _ _ hwithin (hwithin.grows.directory hdir)⟩

/-- A recipe file that is being filled is all that has changed, and it holds the stream if it was
filled.
-/
theorem isStored_fillRecipe (hwf : t.WellFormed)
    (h : makeStorage t temporary .recipeFile = (.ok p, t₁)) (s : Stream) :
    ∃ D n, IsStored t (fillRecipe t₁ p s).2 p D n ∧
      ((fillRecipe t₁ p s).1 = .ok () → n = .file 0o600 s.bytes) := by
  obtain ⟨dir, name, n, rfl, hwf₁, hfile, hwalk, hgrows, hstored⟩ := isStored_of_makeStorage hwf h
  obtain ⟨htext, hwalks⟩ := walk_eq_ok_iff.mp hwalk
  have hthere := hwalks.follow_of_vacant.file_of_made hgrows hfile
  rw [← hgrows.workdir] at hthere
  obtain ⟨hwithin, hcontent⟩ := fillRecipe_within hwf₁ (walk_eq_ok_iff.mpr ⟨htext, hthere⟩) s
  obtain ⟨m, content, hkept⟩ := hwithin.grows.file hfile
  refine ⟨_, _, hstored _ _ hwithin hkept, fun hok => ?_⟩
  exact Option.some.inj (hkept.symm.trans (hcontent hok))

/-- What a run that brings something into the tree leaves: all of it, or nothing if it fails. -/
def AllOrNothing {α : Type} (t : FileTree) (outcome : Changed Fault α)
    (holds : α → FileTree → Prop) : Prop :=
  match outcome with
  | (.error _, t') => t' = t
  | (.ok a, t') => holds a t'

/-- A run that succeeds has brought all of it. -/
theorem AllOrNothing.of_ok {α : Type} {outcome : Changed Fault α}
    {holds : α → FileTree → Prop} {a : α} (h : AllOrNothing t outcome holds)
    (hok : outcome.1 = .ok a) :
    ∃ t', outcome = (.ok a, t') ∧ holds a t' := by
  obtain ⟨answer, t'⟩ := outcome
  obtain rfl : answer = .ok a := hok
  exact ⟨t', rfl, h⟩

/-- A run that fails has changed nothing. -/
theorem AllOrNothing.of_error {α : Type} {outcome : Changed Fault α} {holds : α → FileTree → Prop}
    {f : Fault} (h : AllOrNothing t outcome holds) (herror : outcome.1 = .error f) :
    outcome = (.error f, t) := by
  obtain ⟨answer, t'⟩ := outcome
  obtain rfl : answer = .error f := herror
  exact congrArg _ h

/-- What holds of a success may be weakened. -/
theorem AllOrNothing.mono {α : Type} {outcome : Changed Fault α}
    {holds holds' : α → FileTree → Prop} (h : AllOrNothing t outcome holds)
    (himp : ∀ a t', holds a t' → holds' a t') :
    AllOrNothing t outcome holds' := by
  rcases outcome with ⟨f | a, t'⟩
  · exact h
  · exact himp a t' h

/-- A context is stored, or the tree is as it was. -/
theorem contextFromStream_allOrNothing (hwf : t.WellFormed) (temporary : Path)
    (recipe : RecipeSource) (s : Stream) :
    AllOrNothing t (contextFromStream t temporary recipe s) fun c t' =>
      ∃ D m, IsStored t t' c.root D (.directory m) := by
  unfold contextFromStream
  rcases hmake : makeStorage t temporary .contextDirectory with ⟨f | root, t₁⟩
  · exact tree_of_makeStorage_error hmake
  · obtain ⟨D, m, hstored⟩ := isStored_fillContext hwf hmake recipe s
    dsimp only
    generalize fillContext t₁ root recipe s = filled at hstored
    rcases filled with ⟨f | stored, t₂⟩
    · exact hstored.discard_eq
    · exact ⟨D, m, hstored⟩

/-- A recipe is stored with its bytes, or the tree is as it was. -/
theorem recipeFromStream_allOrNothing (hwf : t.WellFormed) (temporary : Path) (s : Stream) :
    AllOrNothing t (recipeFromStream t temporary s) fun p t' =>
      ∃ D, IsStored t t' p D (.file 0o600 s.bytes) := by
  unfold recipeFromStream
  rcases hmake : makeStorage t temporary .recipeFile with ⟨f | p, t₁⟩
  · exact tree_of_makeStorage_error hmake
  · obtain ⟨D, n, hstored, hcontent⟩ := isStored_fillRecipe hwf hmake s
    dsimp only
    generalize fillRecipe t₁ p s = filled at hstored hcontent
    rcases filled with ⟨f | _, t₂⟩
    · exact hstored.discard_eq
    · obtain rfl := hcontent rfl
      exact ⟨D, hstored⟩

/-- The storage behind sources that are ready is what standard input brought, and nothing else. -/
def BuildSources.IsBacked (sources : BuildSources) (recipe : RecipeSource)
    (context : ContextSource) (s : Stream) (t t' : FileTree) : Prop :=
  match context, recipe with
  | .stdin, _ => ∃ root D m, sources.stagedContext = some root ∧ sources.stagedRecipe = none ∧
      IsStored t t' root D (.directory m)
  | .directory _, .stdin => ∃ p D, sources.stagedContext = none ∧ sources.stagedRecipe = some p ∧
      IsStored t t' p D (.file 0o600 s.bytes)
  | .directory _, _ => sources.stagedContext = none ∧ sources.stagedRecipe = none ∧ t' = t

/-- Closing removes what is behind the sources. -/
theorem BuildSources.IsBacked.close_eq {sources : BuildSources} {recipe : RecipeSource}
    {context : ContextSource} {t' : FileTree} (h : sources.IsBacked recipe context s t t') :
    sources.close t' = (.ok (), t) := by
  obtain ⟨contextDir, stored, stagedContext, stagedRecipe⟩ := sources
  unfold BuildSources.IsBacked at h
  unfold BuildSources.close
  split at h
  · obtain ⟨root, D, m, rfl, rfl, hstored⟩ := h
    simp [hstored.removed]
  · obtain ⟨p, D, rfl, rfl, hstored⟩ := h
    simp [hstored.removed]
  · obtain ⟨rfl, rfl, rfl⟩ := h
    rfl

/-- Sources of which standard input brings the context. -/
theorem prepare_context_allOrNothing (hwf : t.WellFormed) (temporary : Path)
    {recipe : RecipeSource} (hrecipe : recipe ≠ .stdin) (s : Stream) :
    AllOrNothing t (BuildSources.prepare t temporary recipe .stdin s) fun sources t' =>
      sources.IsBacked recipe .stdin s t t' := by
  rcases hmake : makeStorage t temporary .contextDirectory with ⟨f | root, t₁⟩
  · have hstage : StagedSources.stage t temporary recipe .stdin = (.error f, t₁) := by
      cases recipe with
      | stdin => exact absurd rfl hrecipe
      | default | path => simp only [StagedSources.stage, hmake]
    unfold BuildSources.prepare
    rw [hstage]
    exact tree_of_makeStorage_error hmake
  · have hstage : StagedSources.stage t temporary recipe .stdin =
        (.ok ⟨recipe, root, some root, none⟩, t₁) := by
      cases recipe with
      | stdin => exact absurd rfl hrecipe
      | default | path => simp only [StagedSources.stage, hmake]
    -- The directory is stored from here on, and a fault that follows discards it.
    obtain ⟨D, m, hstored⟩ := isStored_fillContext hwf hmake recipe s
    unfold BuildSources.prepare
    rw [hstage]
    dsimp only [StagedSources.stdinRead, StdinRead.run]
    generalize fillContext t₁ root recipe s = filled at hstored
    rcases filled with ⟨f | stored, t₂⟩
    · exact hstored.discard_eq
    · exact ⟨root, D, m, rfl, rfl, hstored⟩

/-- Sources of which standard input brings the recipe. -/
theorem prepare_recipe_allOrNothing (hwf : t.WellFormed) (temporary dir : Path) (s : Stream) :
    AllOrNothing t (BuildSources.prepare t temporary .stdin (.directory dir) s) fun sources t' =>
      sources.IsBacked .stdin (.directory dir) s t t' := by
  unfold BuildSources.prepare StagedSources.stage
  dsimp only
  rcases hmake : makeStorage t temporary .recipeFile with ⟨f | p, t₁⟩
  · exact tree_of_makeStorage_error hmake
  · obtain ⟨D, n, hstored, hcontent⟩ := isStored_fillRecipe hwf hmake s
    dsimp only [StagedSources.stdinRead, StdinRead.run]
    generalize fillRecipe t₁ p s = filled at hstored hcontent
    rcases filled with ⟨f | _, t₂⟩
    · exact hstored.discard_eq
    · obtain rfl := hcontent rfl
      exact ⟨p, D, rfl, rfl, hstored⟩

/-- Bringing standard input into the tree is all or nothing. For every stream, whole or broken, a
context, a recipe or both sources of a build are made ready with storage as the only difference to
the tree before, or not at all, and the tree is as it was. Closing, or dropping, what was made
ready removes the storage with all that is in it. -/
theorem materialization_allOrNothing (hwf : t.WellFormed) (temporary : Path)
    (recipe : RecipeSource) (context : ContextSource) (s : Stream) :
    AllOrNothing t (contextFromStream t temporary recipe s) (fun c t' =>
        (∃ D m, IsStored t t' c.root D (.directory m)) ∧ discard t' c.root = t) ∧
      AllOrNothing t (recipeFromStream t temporary s) (fun p t' =>
        (∃ D, IsStored t t' p D (.file 0o600 s.bytes)) ∧ discard t' p = t) ∧
      AllOrNothing t (BuildSources.prepare t temporary recipe context s) fun sources t' =>
        sources.IsBacked recipe context s t t' ∧ sources.close t' = (.ok (), t) := by
  refine ⟨(contextFromStream_allOrNothing hwf temporary recipe s).mono ?_,
    (recipeFromStream_allOrNothing hwf temporary s).mono ?_,
    AllOrNothing.mono ?_ fun sources t' h => ⟨h, h.close_eq⟩⟩
  · rintro c t' ⟨D, m, hstored⟩
    exact ⟨⟨D, m, hstored⟩, hstored.discard_eq⟩
  · rintro p t' ⟨D, hstored⟩
    exact ⟨⟨D, hstored⟩, hstored.discard_eq⟩
  · cases context with
    | stdin =>
      by_cases hrecipe : recipe = .stdin
      · subst hrecipe
        rfl
      · exact prepare_context_allOrNothing hwf temporary hrecipe s
    | directory dir =>
      cases recipe with
      | stdin => exact prepare_recipe_allOrNothing hwf temporary dir s
      | default | path => exact ⟨rfl, rfl, rfl⟩

/-- A tree with a directory `t` that everybody may use. -/
def sharedTree : FileTree where
  nodes := [([[0x74]], .directory 0o1777)]
  workdir := []

/-- The context directory that is made in the storage of `sharedTree`. -/
def stagedRoot : Path := .ofString "/t/kiln-build-context-000000"

/-- `sharedTree` with that directory. -/
def stagedTree : FileTree :=
  sharedTree.set [[0x74], Utf8.encode "kiln-build-context-000000"] (.directory 0o700)

/-- The first name that is tried there is free. -/
theorem makeStorage_sharedTree :
    makeStorage sharedTree ⟨[0x74]⟩ .contextDirectory = (.ok stagedRoot, stagedTree) := by
  cbv

/-- A stream that is a recipe and no archive, in two reads. -/
def shortRecipe : Stream := ⟨[Utf8.encode "FROM", Utf8.encode " base"], false⟩

/-- It is shorter than a header. -/
theorem isArchive_shortRecipe : isArchive (shortRecipe.bytes.take headerWindow) = false := by
  have hlength : (shortRecipe.bytes.take headerWindow).length = 9 := by cbv
  rw [← Bool.not_eq_true, isArchive_iff_hasMember (by cbv),
    hasMember_iff (by rw [hlength]; decide), hlength]
  exact fun hblock => absurd hblock.1 (by decide)

/-- A file that its owner may only read, and then the same name again. -/
def repeatedItems : List (List Name × Node) :=
  [([[0x61]], .file 0o444 [1]), ([[0x61]], .file 0o644 [2])]

/-- A stream with them. -/
def repeatedFile : Stream := .ofBytes (pack repeatedItems)

/-- The items of the stream can be packed. -/
theorem isPackable_repeatedItems : ∀ item ∈ repeatedItems, IsPackable item := by
  intro item hitem
  simp only [repeatedItems, List.mem_cons, List.not_mem_nil, or_false] at hitem
  rcases hitem with rfl | rfl
  · exact ⟨by decide, by decide, by decide, rfl, by decide⟩
  · exact ⟨by decide, by decide, by decide, rfl, by decide⟩

set_option maxRecDepth 20000 in
/-- The second file cannot be opened, and the first is there by then. -/
theorem extract_repeatedFile :
    extract stagedTree stagedRoot repeatedFile =
      (.error (.extraction (stagedRoot.join ⟨[0x61]⟩) (.file .denied)),
        stagedTree.set [[0x74], Utf8.encode "kiln-build-context-000000", [0x61]]
        (.file 0o444 [1])) := by
  unfold repeatedFile
  rw [extract_pack isPackable_repeatedItems rfl (by decide +kernel)]
  cbv

/-- The stream is what packing them gives. -/
theorem bytes_repeatedFile : repeatedFile.bytes = pack repeatedItems := by
  simp [repeatedFile, Stream.ofBytes, Stream.bytes]

/-- The header of its first file can be read, so it is taken for an archive. -/
theorem isArchive_repeatedFile : headerWindow ≤ repeatedFile.bytes.length ∧
    isArchive (repeatedFile.bytes.take headerWindow) = true := by
  have hheader : IsHeader (headerBlock [0x61] (.file 0o444 [1])) [0x61] (.file 0o444 [1]) :=
    (isPackable_repeatedItems _ List.mem_cons_self).isHeader
  have hwindow : repeatedFile.bytes.take headerWindow = headerBlock [0x61] (.file 0o444 [1]) := by
    rw [bytes_repeatedFile]
    exact List.take_left' hheader.length
  have hlength : (repeatedFile.bytes.take headerWindow).length = headerWindow := by
    rw [hwindow]
    exact hheader.length
  rw [← hwindow] at hheader
  exact ⟨length_window_iff.mp hlength, (isArchive_of_isHeader hheader (by decide) rfl).2.1⟩

/-- What the recipe is stored as in a context. -/
theorem fillContext_shortRecipe :
    fillContext stagedTree stagedRoot .default shortRecipe =
      (.ok (some (stagedRoot.join ⟨defaultRecipe⟩)),
        stagedTree.set [[0x74], Utf8.encode "kiln-build-context-000000", defaultRecipe]
          (.file 0o644 shortRecipe.bytes)) := by
  have hread : shortRecipe.readUpTo headerWindow = .ok (shortRecipe.bytes, ⟨[], false⟩) := by cbv
  have hfront : shortRecipe.bytes.take headerWindow = shortRecipe.bytes := by cbv
  have harchive := isArchive_shortRecipe
  rw [hfront] at harchive
  unfold fillContext
  rw [hread]
  dsimp only
  rw [harchive]
  cbv

/-- The recipe is brought in by each of the three ways. -/
theorem shortRecipe_isBroughtIn :
    (contextFromStream sharedTree ⟨[0x74]⟩ .default shortRecipe).1 =
        .ok ⟨stagedRoot, some (stagedRoot.join ⟨defaultRecipe⟩)⟩ ∧
      (recipeFromStream sharedTree ⟨[0x74]⟩ shortRecipe).1 =
        .ok (.ofString "/t/kiln-build-recipe-000000") ∧
      (BuildSources.prepare sharedTree ⟨[0x74]⟩ .default .stdin shortRecipe).1 =
        .ok ⟨stagedRoot, some (stagedRoot.join ⟨defaultRecipe⟩), some stagedRoot, none⟩ := by
  refine ⟨?_, by cbv, ?_⟩
  · unfold contextFromStream
    rw [makeStorage_sharedTree]
    dsimp only
    rw [fillContext_shortRecipe]
  · unfold BuildSources.prepare StagedSources.stage
    dsimp only
    rw [makeStorage_sharedTree]
    dsimp only [StagedSources.stdinRead, StdinRead.run]
    rw [fillContext_shortRecipe]
    rfl

/-- The archive is not. -/
theorem repeatedFile_isRefused :
    (contextFromStream sharedTree ⟨[0x74]⟩ .default repeatedFile).1 =
      .error (.archive (.extraction (stagedRoot.join ⟨[0x61]⟩) (.file .denied))) := by
  obtain ⟨hlen, harchive⟩ := isArchive_repeatedFile
  rw [contextFromStream_of_archive .default hlen harchive makeStorage_sharedTree,
    extract_repeatedFile]

/-- With storage in `t`, the recipe is brought in as a context, as a recipe and for a build, and
closing removes it. The archive breaks off at its second file, when the first has been written,
and nothing stays of it. -/
theorem shortRecipe_allOrNothing :
    (∃ c t', contextFromStream sharedTree ⟨[0x74]⟩ .default shortRecipe = (.ok c, t') ∧
        (∃ D m, IsStored sharedTree t' c.root D (.directory m)) ∧
          discard t' c.root = sharedTree) ∧
      (∃ p t', recipeFromStream sharedTree ⟨[0x74]⟩ shortRecipe = (.ok p, t') ∧
        (∃ D, IsStored sharedTree t' p D (.file 0o600 shortRecipe.bytes)) ∧
          discard t' p = sharedTree) ∧
      (∃ sources t', BuildSources.prepare sharedTree ⟨[0x74]⟩ .default .stdin shortRecipe =
          (.ok sources, t') ∧ sources.IsBacked .default .stdin shortRecipe sharedTree t' ∧
        sources.close t' = (.ok (), sharedTree)) ∧
      ∃ p, contextFromStream sharedTree ⟨[0x74]⟩ .default repeatedFile =
        (.error (.archive (.extraction p (.file .denied))), sharedTree) := by
  have hwf : sharedTree.WellFormed := by decide
  obtain ⟨hcontext, hrecipe, hbuild⟩ :=
    materialization_allOrNothing hwf ⟨[0x74]⟩ .default .stdin shortRecipe
  obtain ⟨hbroken, -, -⟩ :=
    materialization_allOrNothing hwf ⟨[0x74]⟩ .default .stdin repeatedFile
  obtain ⟨hcontextOk, hrecipeOk, hbuildOk⟩ := shortRecipe_isBroughtIn
  exact ⟨⟨_, hcontext.of_ok hcontextOk⟩, ⟨_, hrecipe.of_ok hrecipeOk⟩,
    ⟨_, hbuild.of_ok hbuildOk⟩, _,
    hbroken.of_error repeatedFile_isRefused⟩

end ImageBuild.Context
