import ImageBuild.Proofs.Archive.FirstMember
import ImageBuild.Proofs.Archive.RoundTrip
import ImageBuild.Proofs.Context.Materialized

/-!
# `ImageBuild.Proofs.Context.Verbatim`: a stream that is the recipe

A context stream that is no archive is the recipe itself. The first block is taken off it to see
what it is, and put back in front of the rest, so what is stored is the stream as it came, however
it was cut into reads (`contextFromStream_eq_storeStream`). It is stored in a directory that was
made for it, in which there is nothing yet (`isEmptyDirectory_of_makeStorage`).

The names that the recipe is stored under come from the command line. They can be made there if
the system accepts each of them and the path that they make (`IsCreatable`).

* `contextFromStream_verbatim`: if the names can be made, the context holds one file with the
  bytes of the stream, and nothing else but the directories that the file is in. If not, nothing
  is left.
-/

set_option autoImplicit false

namespace ImageBuild.Context

open FileTree

variable {t t₁ : FileTree} {temporary root p : Path} {D : Location} {m : Mode}
  {names front : List Name}
  {name n : Name} {recipe : RecipeSource} {s : Stream}

/-! ### Declared names -/

/-- What the recipe source asks for stands under these names in the context: the default name, or
what a declared path without a NUL byte says if the context is taken for the root. -/
inductive IsDeclared : RecipeSource → List Name → Prop
  | default : IsDeclared .default [defaultRecipe]
  | path {declared : Path} : declared.hasNul = false →
    IsDeclared (.path declared) (scopedNames declared)

/-- Names that components add one after the other are names among these. -/
theorem mem_of_mem_foldl {f : List Name → Component → List Name}
    (hf : ∀ kept c, n ∈ f kept c → n ∈ kept ∨ c = .normal n) {components : List Component}
    {kept : List Name} (h : n ∈ components.foldl f kept) : n ∈ kept ∨ .normal n ∈ components := by
  induction components generalizing kept with
  | nil => exact Or.inl h
  | cons c rest ih =>
    rcases ih h with hkept | hrest
    · refine (hf kept c hkept).imp_right fun hc => ?_
      rw [hc]
      exact List.mem_cons_self
    · exact Or.inr (List.mem_cons_of_mem c hrest)

/-- The names are those of the declared path, or the default name. -/
theorem mem_scopedNames {declared : Path} (h : n ∈ scopedNames declared) :
    n = defaultRecipe ∨ .normal n ∈ declared.components := by
  unfold scopedNames at h
  dsimp only at h
  split at h
  · exact Or.inl (List.mem_singleton.mp h)
  · refine Or.inr ((mem_of_mem_foldl (fun kept c hn => ?_) h).resolve_left (by simp))
    cases c with
    | root | here => exact Or.inl hn
    | parent =>
      -- A `..` only takes a name away.
      exact Or.inl (List.mem_of_mem_dropLast hn)
    | normal name =>
      refine (List.mem_append.mp hn).imp_right fun hlast => ?_
      rw [List.mem_singleton.mp hlast]

/-- A single name stands for itself. -/
theorem scopedNames_single (hn : IsName n) : scopedNames ⟨n⟩ = [n] := by
  have hcomponents : Path.components ⟨n⟩ = [.normal n] := by
    have hone := Path.components_ofNames (List.forall_mem_singleton.mpr hn)
    rwa [Path.ofNames, List.intercalate_singleton] at hone
  unfold scopedNames
  rw [hcomponents]
  rfl

namespace IsDeclared

/-- There is a name. -/
theorem ne_nil (h : IsDeclared recipe names) : names ≠ [] := by
  cases h with
  | default => simp
  | path =>
    unfold scopedNames
    dsimp only
    split
    · simp
    · next hsome =>
      simpa using hsome

/-- All of them are plain names. -/
theorem isName (h : IsDeclared recipe names) : ∀ n ∈ names, IsName n ∧ 0 ∉ n := by
  have hdefault : IsName defaultRecipe ∧ 0 ∉ defaultRecipe :=
    ⟨⟨by decide +kernel, by decide +kernel, by decide +kernel, by decide +kernel⟩, by
      decide +kernel⟩
  intro n hn
  cases h with
  | default => rwa [List.mem_singleton.mp hn]
  | path hnul =>
    rcases mem_scopedNames hn with rfl | hmem
    · exact hdefault
    · exact ⟨Path.isName_of_mem_components hmem, Path.nul_notMem_of_mem_components hnul hmem⟩

end IsDeclared

/-- A file can be made under these names below the root: none of them is longer than a name may
be, and their path is no longer than a path may be. -/
structure IsCreatable (root : Path) (names : List Name) : Prop where
  name : ∀ n ∈ names, n.length ≤ nameLimit
  path : (root.join (.ofNames names)).bytes.length ≤ pathLimit

/-! ### The directory for a context -/

/-- The owner has every right on a directory that is made for the owner alone. -/
theorem owned_newDirectoryMode (t : FileTree) (dir : Location) :
    (Node.directory (t.newDirectoryMode dir 0o700)).executable = true ∧
      (Node.directory (t.newDirectoryMode dir 0o700)).writable = true := by
  have hrun : ((0o700 : Mode) &&& ~~~umask).getLsbD 6 = true := by decide
  have hwrite : ((0o700 : Mode) &&& ~~~umask).getLsbD 7 = true := by decide
  unfold Node.executable Node.writable Node.mode newDirectoryMode
  cases t.lookup dir with
  | none => exact ⟨hrun, hwrite⟩
  | some n =>
    dsimp only
    rw [BitVec.getLsbD_or, BitVec.getLsbD_or, hrun, hwrite]
    exact ⟨rfl, rfl⟩

/-- A directory that was made can be written to. -/
theorem canAlter_of_makeDirectory {dir : Location} (hlast : p.bytes.getLast? ≠ some slash)
    (hwalk : t.walk false p = .ok (.vacant dir name))
    (h : t.makeDirectory p 0o700 = (.ok (), t₁)) :
    t₁.canAlter (dir ++ [name]) = true := by
  obtain ⟨hrun, hwrite⟩ := owned_newDirectoryMode t dir
  have hfits : t.Fits (dir ++ [name]) (.directory (t.newDirectoryMode dir 0o700)) :=
    .of_vacant hwalk rfl
  unfold makeDirectory at h
  rw [withoutTrailingSlash_eq_self hlast, (walk_eq_ok_iff.mp hwalk).1, hwalk] at h
  dsimp only at h
  split at h
  · cases h
    unfold FileTree.canAlter
    rw [hfits.lookup_set_self]
    dsimp only
    rw [hrun, hwrite]
    rfl
  · cases h

/-- The directory for a context is empty and can be filled. Whatever is done within it is all that
has changed since before it was made. -/
theorem isEmptyDirectory_of_makeStorage (hwf : t.WellFormed)
    (h : makeStorage t temporary .contextDirectory = (.ok root, t₁)) :
    ∃ D m, t₁.WellFormed ∧ Archive.IsEmptyDirectory t₁ root D m ∧
      ∀ t₂ n', ChangesWithin D t₁ t₂ → t₂.lookup D = some n' → IsStored t t₂ root D n' := by
  obtain ⟨dir, name, n, ⟨m, rfl⟩, hwf₁, hdir, hwalk, hgrows, hstored⟩ :=
    isStored_of_makeStorage hwf h
  have hD := directoryAt?_of_made hwalk hgrows hdir
  have htext := (walk_eq_ok_iff.mp hwalk).1
  have halter : t₁.canAlter (dir ++ [name]) = true := by
    unfold makeStorage at h
    dsimp only at h
    split at h
    · next hmake =>
      cases h
      exact canAlter_of_makeDirectory (getLast?_freshPath _ t temporary) hwalk hmake
    · cases h
  refine ⟨dir ++ [name], m, hwf₁, ⟨⟨hD, hdir, halter⟩, (checkText_eq_ok_iff.mp htext).1, ?_⟩,
    hstored⟩
  -- Nothing was below the vacant spot, and only the directory itself was put there.
  intro below
  have hout : t₁.lookup (dir ++ [name] ++ [below]) = t.lookup (dir ++ [name] ++ [below]) := by
    obtain ⟨dir', name', n', hwalk', -, -, hfits, rfl⟩ := makeStorage_eq_ok h
    cases hwalk.symm.trans hwalk'
    exact hfits.lookup_set_ne (by simp)
  rw [hout]
  cases hbelow : t.lookup (dir ++ [name] ++ [below]) with
  | none => rfl
  | some node =>
    obtain ⟨mode, hparent⟩ := hwf.parent hbelow
    rw [(walk_eq_ok_iff.mp hwalk).2.vacant.1] at hparent
    cases hparent

/-! ### Storing a stream in an empty directory -/

/-- In the directory at `D` there is a file with these bytes under these names. The directories
that it is in are there, and nothing else. -/
structure HoldsOnly (t : FileTree) (D : Location) (names : List Name) (bytes : Bytes) : Prop where
  file : ∃ m, t.lookup (D ++ names) = some (.file m bytes)
  parent : ∀ first more : List Name, names = first ++ more → first ≠ [] → more ≠ [] →
    ∃ m, t.lookup (D ++ first) = some (.directory m)
  only : ∀ below : List Name, t.lookup (D ++ below) ≠ none → below <+: names

section
variable (hempty : Archive.IsEmptyDirectory t root D m) (hwf : t.WellFormed)
include hempty hwf

/-- Nothing is anywhere below an empty directory. -/
theorem lookup_of_isEmptyDirectory {below : List Name} (hne : below ≠ []) :
    t.lookup (D ++ below) = none := by
  cases hbelow : t.lookup (D ++ below) with
  | none => rfl
  | some node =>
    have hnothing := (Archive.Unpacked.refl (m := m) hwf hempty.empty).inside below node hne
    exact absurd (hnothing.mp hbelow) Archive.not_isUnpacked_nil

/-- A stream that can be read is stored in an empty directory as it is. -/
theorem storeStream_eq (hnames : AreWalkable root (front ++ [name])) (hwhole : s.broken = false) :
    ∃ t', storeStream t (root.join (.ofNames (front ++ [name]))) s = (.ok (), t') ∧
      t'.contents (root.join (.ofNames (front ++ [name]))) = .ok s.bytes ∧
      HoldsOnly t' D (front ++ [name]) s.bytes := by
  have hnone := fun (below : List Name) (hne : below ≠ []) =>
    lookup_of_isEmptyDirectory hempty hwf hne
  have hway : t.IsOpenWay D m front := fun first more _ hne => Or.inl (hnone first hne)
  obtain ⟨up, t₁, hup, hcreate, hmade⟩ := hempty.receives.createParent_eq hwf hnames hway
  -- The file is opened in its directory, where it is not yet.
  have hvacant := (hmade.lookup_concat name).trans (hnone (front ++ [name]) (by simp))
  have hreceives := hempty.receives.grow hmade.grows
  have hthere := hmade.isMade hway
  have hwalk :=
    hreceives.walk_eq hmade.wellFormed hnames (hmade.isOpenWay hway) hthere hvacant true
  rw [if_pos rfl] at hwalk
  have hopen := openEmpty_of_vacant hwalk (hreceives.canAlter hthere) 0o666
  have hfits : t₁.Fits (D ++ front ++ [name]) (.file (0o666 &&& ~~~umask) []) :=
    .of_vacant hwalk rfl
  have hfull : (t₁.set (D ++ front ++ [name]) (.file (0o666 &&& ~~~umask) [])).Fits
      (D ++ front ++ [name]) (.file (0o666 &&& ~~~umask) s.bytes) := hfits.again
  have hgrows := hfits.growsInto.trans hfull.growsInto
  have hfound := walk_of_openEmpty hmade.wellFormed hopen hgrows hfull.lookup_set_self
  refine ⟨(t₁.set (D ++ front ++ [name]) (.file (0o666 &&& ~~~umask) [])).set
    (D ++ front ++ [name])
    (.file (0o666 &&& ~~~umask) s.bytes), ?_, ?_, ⟨?_, ?_, ?_⟩⟩
  · unfold storeStream
    rw [hup]
    dsimp only
    rw [hcreate]
    dsimp only
    rw [hopen]
    dsimp only
    rw [fill_eq hfits.lookup_set_self, hwhole, if_neg (by simp)]
  · unfold contents find
    rw [hfound]
    have hreadable : (Node.file ((0o666 : Mode) &&& ~~~umask) []).readable = true := by decide
    simp only [bind, Except.bind, pure, Except.pure, if_pos hreadable]
  · exact ⟨_, by rw [← List.append_assoc]; exact hfull.lookup_set_self⟩
  · intro first more heq hne hmore
    rcases List.eq_nil_or_concat more with rfl | ⟨rest, last, rfl⟩
    · exact absurd rfl hmore
    · rw [List.concat_eq_append, ← List.append_assoc] at heq
      obtain ⟨rfl, -⟩ := List.append_inj' heq rfl
      exact ⟨_, hgrows.directory (hmade.made first rest rfl hne (hnone first hne))⟩
  · intro below hbelow
    refine Decidable.byContradiction fun hout => hbelow ?_
    -- Neither the file nor one of its directories is there, so it is as it was.
    have hne : D ++ below ≠ D ++ front ++ [name] := by
      rw [List.append_assoc]
      exact fun heq => hout (List.append_cancel_left heq ▸ List.prefix_rfl)
    rw [hfull.lookup_set_ne hne, hfits.lookup_set_ne hne, hmade.kept _ (Or.inr ?_)]
    · exact hnone below fun hnil => hout (hnil ▸ List.nil_prefix)
    · intro first more heq _ hloc
      rw [List.append_cancel_left hloc, heq] at hout
      exact hout ⟨more ++ [name], by simp⟩

end

/-- A stream is stored in a file that was opened. -/
theorem exists_openEmpty_of_storeStream (hwf : t.WellFormed)
    (h : storeStream t p s = (.ok (), t₁)) :
    ∃ (t₀ : FileTree) (loc : Location) (t₂ : FileTree), t₀.WellFormed ∧
      t₀.openEmpty p 0o666 = (.ok loc, t₂) := by
  unfold storeStream at h
  dsimp only at h
  split at h
  · cases h
  · next t₀ hparents =>
    -- The directories above the file were made by then.
    have hwf₀ : t₀.WellFormed := by
      split at hparents
      · next up _ =>
        have hadds := createAll_adds hwf up
        rw [hparents] at hadds
        exact hadds.wellFormed
      · cases hparents
        exact hwf
    split at h
    · cases h
    · next loc t₂ hopen =>
      exact ⟨t₀, loc, t₂, hwf₀, hopen⟩

/-- What was stored could be made. -/
theorem isCreatable_of_storeStream (hwf : t.WellFormed) (hnames : ∀ n ∈ names, IsName n)
    (hne : names ≠ []) (h : storeStream t (root.join (.ofNames names)) s = (.ok (), t₁)) :
      IsCreatable root names := by
  obtain ⟨t₀, loc, t₂, hwf₀, hopen⟩ := exists_openEmpty_of_storeStream hwf h
  rcases openEmpty_cases hwf₀ (root.join (.ofNames names)) 0o666 with
    ⟨f, heq⟩ | ⟨spot, -, -, hwalk, -⟩
  · rw [hopen] at heq
    cases heq
  · obtain ⟨htext, hwalks⟩ := (walk_join_eq_ok_iff hnames hne).mp hwalk
    exact ⟨fun n hn => hwalks.length_le n (List.mem_append_right _ hn),
      (checkText_eq_ok_iff.mp htext).2.2⟩

/-! ### A stream that is no archive -/

/-- A stream whose first bytes are no archive's is stored as it came, under the names of the
recipe source. -/
theorem contextFromStream_eq_storeStream (hwhole : s.broken = false)
    (hrecipe : Archive.isArchive (s.bytes.take Archive.headerWindow) = false)
    (hmade : makeStorage t temporary .contextDirectory = (.ok root, t₁))
    (hdeclared : IsDeclared recipe names) (hjoin : t₁.joinWithin root (.ofNames names) = .ok p) :
    contextFromStream t temporary recipe s =
      match storeStream t₁ p s with
      | (.ok (), t₂) => (.ok ⟨root, some p⟩, t₂)
      | (.error f, t₂) => (.error f, discard t₂ root) := by
  obtain ⟨rest, hread, hrest, hbytes⟩ := Stream.readUpTo_eq hwhole Archive.headerWindow
  -- The first bytes are in front of the others again, and the whole can be read like the stream.
  have hsame : storeStream t₁ p (rest.putBack (s.bytes.take Archive.headerWindow)) =
      storeStream t₁ p s := by
    unfold storeStream
    rw [hbytes, show (rest.putBack _).broken = s.broken from hrest.trans hwhole.symm]
  unfold contextFromStream fillContext
  rw [hmade]
  dsimp only
  rw [hread]
  dsimp only
  rw [hrecipe, if_neg (by simp)]
  cases hdeclared with
  | default =>
    have hname : (⟨defaultRecipe⟩ : Path) = .ofNames [defaultRecipe] := by
      rw [Path.ofNames, List.intercalate_singleton]
    dsimp only
    rw [hname, hjoin]
    dsimp only
    rw [hsame]
    rcases storeStream t₁ p s with ⟨f | _, t₂⟩ <;> rfl
  | path =>
    dsimp only [scopedRecipeName]
    rw [hjoin]
    dsimp only
    rw [hsame]
    rcases storeStream t₁ p s with ⟨f | _, t₂⟩ <;> rfl

/-- A stream that is no archive by its first bytes is the recipe, whatever its length and however
it is cut into reads. If a file can be made under the names of the recipe source, the context
holds that file with the bytes of the stream, and nothing else but the directories that it is in;
the context is all that has changed. If not, the run fails, and the tree is as it was. -/
theorem contextFromStream_verbatim (hwf : t.WellFormed) (hwhole : s.broken = false)
    (hrecipe : Archive.isArchive (s.bytes.take Archive.headerWindow) = false)
    (hmade : makeStorage t temporary .contextDirectory = (.ok root, t₁))
    (hdeclared : IsDeclared recipe names) :
    (IsCreatable root names → ∃ D m t',
      contextFromStream t temporary recipe s =
        (.ok ⟨root, some (root.join (.ofNames names))⟩, t') ∧
      t'.contents (root.join (.ofNames names)) = .ok s.bytes ∧ HoldsOnly t' D names s.bytes ∧
      IsStored t t' root D (.directory m)) ∧
    (¬ IsCreatable root names → ∃ f, contextFromStream t temporary recipe s = (.error f, t)) := by
  obtain ⟨D, m, hwf₁, hempty, hstored⟩ := isEmptyDirectory_of_makeStorage hwf hmade
  have hnames := fun n hn => (hdeclared.isName n hn).1
  have hnul : (Path.ofNames names).hasNul = false :=
    Path.hasNul_ofNames fun n hn => (hdeclared.isName n hn).2
  have hD := hempty.receives.denotes
  have hfree :=
    (Archive.Unpacked.refl (m := m) hwf₁ hempty.empty).linkFree ⟨m, hempty.receives.directory⟩
  have hjoin : t₁.joinWithin root (.ofNames names) = .ok (root.join (.ofNames names)) :=
    (Archive.spells_ofNames hnames).joinWithin_eq (by simpa [Path.hasNul] using hnul) hfree hD
  have hrun := contextFromStream_eq_storeStream hwhole hrecipe hmade hdeclared hjoin
  -- The context is new and empty, so the name leads where it spells, and whether the file can be
  -- made turns on the length of its name and its path alone.
  refine ⟨fun hcreatable => ?_, fun hcreatable => ?_⟩
  · have hwalkable : AreWalkable root names := by
      refine ⟨hnames, hcreatable.name, fun hne =>
        checkText_eq_ok_iff.mpr ⟨?_, ?_, hcreatable.path⟩⟩
      · exact Path.hasNul_join hempty.hasNul hnul
      · exact Path.isEmpty_join hnames hne root
    obtain ⟨front, name, rfl⟩ : ∃ front name, names = front ++ [name] :=
      ⟨_, _, (List.dropLast_concat_getLast hdeclared.ne_nil).symm⟩
    obtain ⟨t', hstore, hcontents, hholds⟩ := storeStream_eq hempty hwf₁ hwalkable hwhole
    have hchecked : t₁.Checked root ([] ++ (front ++ [name])) :=
      .of_linkFree hfree hD hnames fun n hn => (hdeclared.isName n hn).2
    have hwithin := (storeStream_changesBelow hwf₁ (.of_directoryAt? hD) hchecked s).within hD
    rw [hstore] at hrun
    rw [List.nil_append, hstore] at hwithin
    exact ⟨D, m, t', hrun, hcontents, hholds,
      hstored t' _ hwithin (hwithin.grows.directory hempty.receives.directory)⟩
  · rcases hstore : storeStream t₁ (root.join (.ofNames names)) s with
      ⟨f | _, t₂⟩ <;> rw [hstore] at hrun
    · have hnothing := contextFromStream_allOrNothing hwf temporary recipe s
      rw [hrun] at hnothing
      exact ⟨f, hrun.trans (congrArg _ hnothing)⟩
    · exact absurd (isCreatable_of_storeStream hwf₁ hnames hdeclared.ne_nil hstore) hcreatable

/-- A recipe in two reads that is declared as `a/../b/c` is the file `c` in the directory `b` of
its context. Under a name of 256 letters it cannot be stored. -/
theorem shortRecipe_verbatim :
    (∃ D m t', contextFromStream sharedTree ⟨[0x74]⟩ (.path (.ofString "a/../b/c")) shortRecipe =
        (.ok ⟨stagedRoot, some (stagedRoot.join (.ofString "b/c"))⟩, t') ∧
      t'.contents (stagedRoot.join (.ofString "b/c")) = .ok (Utf8.encode "FROM base") ∧
      HoldsOnly t' D [[0x62], [0x63]] (Utf8.encode "FROM base") ∧
      IsStored sharedTree t' stagedRoot D (.directory m)) ∧
    ∃ f, contextFromStream sharedTree ⟨[0x74]⟩ (.path ⟨List.replicate 256 0x61⟩) shortRecipe =
      (.error f, sharedTree) := by
  have hbytes : shortRecipe.bytes = Utf8.encode "FROM base" := by cbv
  have hnames : scopedNames (.ofString "a/../b/c") = [[0x62], [0x63]] := by cbv
  have hpath : Path.ofNames [[0x62], [0x63]] = .ofString "b/c" := by cbv
  have hletters : IsName (List.replicate 256 0x61) := by
    constructor <;> decide +kernel
  have hclimbing : (Path.ofString "a/../b/c").hasNul = false := by cbv
  have hlong : (Path.mk (List.replicate 256 0x61)).hasNul = false := by decide +kernel
  have hstored :=
    contextFromStream_verbatim (by decide) rfl isArchive_shortRecipe makeStorage_sharedTree
    (.path hclimbing)
  have hrefused :=
    contextFromStream_verbatim (by decide) rfl isArchive_shortRecipe makeStorage_sharedTree
    (.path hlong)
  rw [hnames, hpath, hbytes] at hstored
  rw [scopedNames_single hletters] at hrefused
  refine ⟨hstored.1 ⟨by decide, by rw [hpath]; decide +kernel⟩, hrefused.2 fun hcreatable => ?_⟩
  exact absurd (hcreatable.name _ (List.mem_singleton_self _)) (by decide +kernel)

end ImageBuild.Context
