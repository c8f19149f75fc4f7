import ImageBuild.Proofs.Request.Attributes
import ImageBuild.Proofs.Text.Utf8
import ImageBuild.Proofs.Tree.Walk

/-!
# `ImageBuild.Proofs.Request.Recipe`: where the engine finds the recipe

The engine is not told the path of the recipe. It is served a directory, `recipeDir`, and told a
name, `recipeName`. `recipe_reassembled` says that the name in the directory is the recipe.

The two are taken from the path apart. The name is its last component. The directory is its
parent, which keeps the spelling of what it does not leave out: slashes in a row and dots before
the last two steps stay as they are. So the proofs do not compare texts but components: a path
that ends in a name has the components of its parent and then the name
(`Path.components_eq_concat`).

A bare name has an empty parent, in whose place `.` is served (`recipeDir_cases`). That adds a
leading `.` and nothing else (`components_recipeDir_join`), and dots make no difference to where a
walk ends (`FileTree.walk_join_of_walk`). The text that is walked has no more bytes than the
user's (`Path.exists_parent`), or it is a bare name, so it is not refused for its length.
-/

set_option autoImplicit false

namespace ImageBuild

/-! ### Paths and their last names -/

namespace Path

variable {p up : Path} {n : Name}

/-- Fewer segments make a text with fewer bytes. -/
theorem intercalate_sublist {l l' : List Bytes} (h : l.Sublist l') :
    ([slash].intercalate l).Sublist ([slash].intercalate l') := by
  induction h with
  | slnil => exact List.Sublist.refl _
  | @cons l l' s h ih =>
    cases l' with
    | nil => simp [List.sublist_nil.mp h]
    | cons first rest =>
      rw [List.intercalate_cons_cons]
      exact ih.trans (List.sublist_append_right _ _)
  | @cons_cons l l' s h ih =>
    cases l' with
    | nil => simp [List.sublist_nil.mp h]
    | cons first rest =>
      rw [List.intercalate_cons_cons]
      cases l with
      | nil => simp [List.intercalate_singleton]
      | cons first' rest' =>
        rw [List.intercalate_cons_cons]
        exact ih.append_left _

/-- Trimming only leaves out segments. -/
theorem trimSegments_sublist (l : List Bytes) : (trimSegments l).Sublist l := by
  obtain ⟨tail, htail, -⟩ := exists_trimSegments_append l
  conv_rhs => rw [htail]
  exact List.sublist_append_left _ _

/-- What the joining of a name keeps of the segments is some of them. -/
theorem stem_sublist (p : Path) : p.stem.Sublist p.segments := by
  unfold stem
  split
  · exact List.nil_sublist _
  · split
    · exact List.dropLast_sublist _
    · exact List.Sublist.refl _

/-- If the segments of a path, and a name behind them, are some of the segments of another path,
then its text with the name joined onto it is the other text with something left out. -/
theorem join_sublist (hn : IsName n) {front : List Bytes} (hstem : up.stem.Sublist front)
    (h : (front ++ [n]).Sublist p.segments) : (up.join (.ofNames [n])).bytes.Sublist p.bytes := by
  rw [join_eq_intercalate (List.forall_mem_singleton.mpr hn) (by simp), ← intercalate_segments p]
  exact intercalate_sublist ((hstem.append_right [n]).trans h)

/-- A path that ends in a name has the components of its parent and then the name. -/
theorem components_eq_concat (h : p.components.getLast? = some (.normal n))
    (hup : p.parent? = some up) :
    p.components = up.components ++ [.normal n] := by
  obtain ⟨front, hfront⟩ := List.getLast?_eq_some_iff.mp h
  rw [components_parent? hup, hfront, List.dropLast_concat]

/-- A path that ends in a name has a parent. Its text with the name joined onto it is that of the
path with something left out, unless the parent is empty. -/
theorem exists_parent (h : p.components.getLast? = some (.normal n)) :
    ∃ up, p.parent? = some up ∧
      (up.isEmpty = false → (up.join (.ofNames [n])).bytes.Sublist p.bytes) := by
  have hname := isName_of_mem_components (List.mem_of_getLast? h)
  obtain ⟨first, rest, hseg⟩ := List.exists_cons_of_ne_nil (segments_ne_nil p)
  have hslash : ∀ s ∈ first :: rest, slash ∉ s := by
    intro s hs
    exact slash_notMem_of_mem_segments (p := p) (by rw [hseg]; exact hs)
  rcases trimSegments_eq_nil_or rest with htrim | ⟨front, last, htrim, hlast⟩
  · -- The first segment is the name, and the parent is empty.
    have hsteps : rest.filter isStep = [] := by rw [← filter_trimSegments, htrim]; rfl
    have hfirst : first ≠ [] := by
      rintro rfl
      rw [components_of_segments hseg, List.filter_cons, hsteps] at h
      cases rest <;> simp [isStep, dot] at h
    refine ⟨⟨[]⟩, ?_, fun hempty => absurd hempty (by decide)⟩
    unfold parent?
    rw [hseg]
    simp [htrim, hfirst]
  · -- The name is the last segment that means a step.
    have hlast_eq : last = n := by
      rw [components_of_trimSegments hseg htrim hlast, List.getLast?_concat] at h
      exact componentOf_injective ((Option.some.inj h).trans hname.componentOf.symm)
    have hkept : ((first :: trimSegments front) ++ [n]).Sublist p.segments := by
      have hrest : (front ++ [n]).Sublist rest := hlast_eq ▸ htrim ▸ trimSegments_sublist rest
      rw [hseg, List.cons_append]
      exact (((trimSegments_sublist front).append_right _).trans hrest).cons_cons _
    have hone : ∀ segment, [segment].Sublist (segment :: trimSegments front) := by
      intro segment
      exact (List.nil_sublist _).cons_cons _
    rw [parent?_of_trimSegments hseg htrim]
    split
    · split
      · next hroot =>
        have hfirst : first = [] := by simpa using hroot
        subst hfirst
        exact ⟨⟨[slash]⟩, rfl, fun _ => join_sublist hname (hone []) hkept⟩
      · have hsegments : Path.segments ⟨first⟩ = [first] :=
          List.splitOn_eq_singleton (hslash first List.mem_cons_self)
        have hstem := stem_sublist ⟨first⟩
        rw [hsegments] at hstem
        exact ⟨⟨first⟩, rfl, fun _ => join_sublist hname (hstem.trans (hone first)) hkept⟩
    · have hsegments : Path.segments ⟨[slash].intercalate (first :: trimSegments front)⟩ =
          first :: trimSegments front := by
        refine segments_intercalate (by simp) fun s hs => ?_
        refine hslash s (hseg ▸ hkept.mem ?_)
        exact List.mem_append_left [n] hs
      have hstem := stem_sublist ⟨[slash].intercalate (first :: trimSegments front)⟩
      rw [hsegments] at hstem
      exact ⟨_, rfl, fun _ => join_sublist hname hstem hkept⟩

/-- Paths with the same components but for a leading `.` have the same segments but for dots. -/
theorem filter_steps_of_components {p q : Path} {leading : List Component}
    (hleading : ∀ c ∈ leading, c = .here) (h : q.components = leading ++ p.components) :
    q.steps.filter Path.isStep = p.steps.filter Path.isStep := by
  have hnone : leading.filter (fun c => c != .root && c != .here) = [] := by
    refine List.filter_eq_nil_iff.mpr fun c hc => ?_
    rw [hleading c hc]
    decide
  have hsteps := congrArg (List.filter fun c => c != .root && c != .here) h
  rw [List.filter_append, hnone, List.nil_append, filter_components, filter_components] at hsteps
  rw [filter_steps, filter_steps]
  exact List.map_injective_iff.mpr (fun _ _ => componentOf_injective) hsteps

end Path

/-! ### The place of the recipe -/

namespace FileTree

variable {t : FileTree} {p dir : Path} {n : Name} {spot : Spot}

/-- A name is looked up in a directory as a path with the same steps is walked, dots apart. -/
theorem walk_join_of_walk (hn : IsName n) (hsame : dir.isAbsolute = p.isAbsolute)
    (hsteps : (dir.join (.ofNames [n])).steps.filter Path.isStep = p.steps.filter Path.isStep)
    (htext : checkText (dir.join (.ofNames [n])) = .ok ()) (h : t.walk true p = .ok spot) :
    t.walk true (dir.join (.ofNames [n])) = .ok spot := by
  have hnames : ∀ m ∈ [n], IsName m := List.forall_mem_singleton.mpr hn
  have hwalks := (walk_eq_ok_iff.mp h).2.filter_steps
  rw [filter_walkSegments, ← Path.filter_steps, ← hsteps, Path.steps_join hnames (by simp)]
    at hwalks
  refine (walk_join_eq_ok_iff hnames (by simp)).mpr ⟨htext, Walks.of_filter_steps hn.isStep ?_⟩
  rwa [startOf, hsame, ← startOf]

end FileTree

namespace BuildRequest

open Attributes

variable {r : BuildRequest} {name : Name}

/-- Attributes under a label leave the keys of others alone. -/
theorem get?_addAll_of_forall_ne {key label : String} {a entries : Attributes}
    (h : ∀ k, key ≠ label ++ k) : (addAll label a entries).get? key = a.get? key := by
  have hnone : (entries.entries.reverse.map fun e => (label ++ e.1, e.2)).lookup key = none := by
    refine List.lookup_eq_none_iff.mpr fun e he => ?_
    obtain ⟨e', -, rfl⟩ := List.mem_map.mp he
    simpa using h e'.1
  unfold addAll
  rw [get?_foldl_insert (label ++ ·), hnone, Option.none_or]

/-- Whatever else the frontend is told, it is told the name of the recipe. -/
theorem get?_frontendAttributes_filename (r : BuildRequest) :
    r.frontendAttributes.get? "filename" = some r.recipeName := by
  -- What is put in behind a label has the first letter of the label.
  have hbehind : ∀ label : String, label.toList.head? ≠ some 'f' → label.toList ≠ [] →
      ∀ k, "filename" ≠ label ++ k := by
    intro label hhead hne k heq
    have hlist := congrArg (List.head? ∘ String.toList) heq
    rw [Function.comp_apply, Function.comp_apply, String.toList_append,
      List.head?_append_of_ne_nil _ hne] at hlist
    exact hhead hlist.symm
  have hargs := hbehind "build-arg:" (by decide) (by decide)
  have hlabels := hbehind "label:" (by decide) (by decide)
  unfold frontendAttributes
  cases r.target <;> cases r.cacheDisabled <;> simp [get?_insert, get?_addAll_of_forall_ne hargs,
    get?_addAll_of_forall_ne hlabels]

/-- The directory of a recipe is the working directory if the recipe is a bare name, and its
parent if it is not. -/
theorem recipeDir_cases (h : r.recipePath.components.getLast? = some (.normal name)) :
    (r.recipeDir = ⟨dot⟩ ∧ r.recipePath.components = [.normal name]) ∨
      (r.recipeDir.components ≠ [] ∧ r.recipePath.components =
        r.recipeDir.components ++ [.normal name] ∧
        (r.recipeDir.join (.ofNames [name])).bytes.Sublist r.recipePath.bytes) := by
  obtain ⟨up, hup, hsublist⟩ := Path.exists_parent h
  have hconcat := Path.components_eq_concat h hup
  unfold recipeDir
  rw [hup]
  dsimp only
  cases hempty : up.isEmpty with
  | true =>
    have hbytes : up = ⟨[]⟩ := congrArg Path.mk (List.isEmpty_iff.mp hempty)
    rw [hbytes] at hconcat
    exact Or.inl ⟨rfl, hconcat⟩
  | false => exact Or.inr ⟨Path.components_ne_nil hempty, hconcat, hsublist hempty⟩

/-- The name in the directory has the components of the recipe, behind a `.` for a recipe that is
a bare name. -/
theorem components_recipeDir_join (h : r.recipePath.components.getLast? = some (.normal name)) :
    (r.recipeDir.join (.ofNames [name])).components =
      (if r.recipePath.components = [.normal name] then [.here] else []) ++
        r.recipePath.components := by
  have hname := Path.isName_of_mem_components (List.mem_of_getLast? h)
  rw [Path.components_join (List.forall_mem_singleton.mpr hname) (by simp)]
  rcases recipeDir_cases h with ⟨hdir, hbare⟩ | ⟨hne, hconcat, -⟩
  · have hdot : Path.components ⟨dot⟩ = [.here] := by decide
    rw [if_pos hbare, hbare, hdir, hdot]
    rfl
  · have hnot : r.recipePath.components ≠ [.normal name] := by
      rw [hconcat]
      simpa using hne
    rw [if_neg hnot, hconcat]
    rfl

/-- The name in the directory may be walked if the path of the recipe can be. The parent's
spelling leaves out bytes of the path. A bare name gets two bytes more, and names are much shorter
than paths may be. -/
theorem checkText_recipeDir_join (h : r.recipePath.components.getLast? = some (.normal name))
    {t : FileTree} {spot : Spot} (hwalk : t.walk true r.recipePath = .ok spot) :
    FileTree.checkText (r.recipeDir.join (.ofNames [name])) = .ok () := by
  have hmem := List.mem_of_getLast? h
  have hname := Path.isName_of_mem_components hmem
  have hnames : ∀ m ∈ [name], IsName m := List.forall_mem_singleton.mpr hname
  have hsome := Path.isEmpty_join hnames (by simp) r.recipeDir
  obtain ⟨htext, hwalks⟩ := FileTree.walk_eq_ok_iff.mp hwalk
  rcases recipeDir_cases h with ⟨hdir, -⟩ | ⟨-, -, hsublist⟩
  · rw [hdir] at hsome ⊢
    have hzero := Path.nul_notMem_of_mem_components (FileTree.checkText_eq_ok_iff.mp htext).1 hmem
    have hnul := Path.hasNul_ofNames (List.forall_mem_singleton.mpr hzero)
    have hshort : name.length ≤ 255 := by
      refine hwalks.length_le name (List.mem_append_left _ (List.mem_filter.mpr ?_))
      exact ⟨Path.mem_segments_of_mem_components hmem, by simpa using hname.ne_nil⟩
    have hbytes : (Path.join ⟨dot⟩ (.ofNames [name])).bytes = dot ++ slash :: name := by
      unfold Path.join
      rw [Path.isAbsolute_ofNames hnames]
      simp [Path.ofNames, Path.isEmpty, dot, slash]
    refine FileTree.checkText_eq_ok_iff.mpr ⟨Path.hasNul_join (by decide) hnul, hsome, ?_⟩
    rw [hbytes]
    show name.length + 1 + 1 ≤ 4095
    omega
  · exact FileTree.checkText_of_sublist htext hsome hsublist

/-- Where the path of the recipe leads, the name in the directory leads to. -/
theorem walk_recipeDir_join (h : r.recipePath.components.getLast? = some (.normal name))
    {t : FileTree} {spot : Spot} (hwalk : t.walk true r.recipePath = .ok spot) :
    t.walk true (r.recipeDir.join (.ofNames [name])) = .ok spot := by
  have hname := Path.isName_of_mem_components (List.mem_of_getLast? h)
  have hnames : ∀ m ∈ [name], IsName m := List.forall_mem_singleton.mpr hname
  have hcomponents := components_recipeDir_join h
  -- A leading `.` is no step, and it leaves a relative path relative.
  have hsteps := Path.filter_steps_of_components (p := r.recipePath) (fun c hc => by
    split at hc
    · exact List.mem_singleton.mp hc
    · cases hc) hcomponents
  have hsame : r.recipeDir.isAbsolute = r.recipePath.isAbsolute := by
    rw [← Path.isAbsolute_join hnames, Bool.eq_iff_iff, ← Path.head?_components_eq_root_iff,
      ← Path.head?_components_eq_root_iff, hcomponents]
    split
    · next hbare =>
      simp [hbare]
    · rfl
  exact FileTree.walk_join_of_walk hname hsame hsteps (checkText_recipeDir_join h hwalk) hwalk

/-- The directory that is served for the recipe and the name that the frontend is told are the
place of the recipe. This holds of every path that ends in a name which is text: absolute or not,
with a directory or without, with dots and with slashes repeated or at its end.

* The name in the directory has the components of the path, behind a `.` for a path that is a bare
  name.
* Wherever the path leads in a tree, the name in the directory leads to the same. -/
theorem recipe_reassembled (r : BuildRequest) (id sessionId : String) {name : Name}
    (hlast : r.recipePath.components.getLast? = some (.normal name))
    (hvalid : Utf8.isValid name = true) :
    ∃ dir filename,
      (r.solveRequest id sessionId).localDirs.lookup "dockerfile-dir" = some dir ∧
      (r.solveRequest id sessionId).frontendAttrs.get? "filename" = some filename ∧
      Utf8.encode filename = name ∧
      (dir.join (.ofString filename)).components =
        (if r.recipePath.components = [.normal name] then [.here] else []) ++
          r.recipePath.components ∧
      ∀ (t : FileTree) (spot : Spot), t.walk true r.recipePath = .ok spot →
        t.walk true (dir.join (.ofString filename)) = .ok spot := by
  obtain ⟨text, htext⟩ := Utf8.isValid_iff.mp hvalid
  have hrecipe : r.recipeName = text := by
    unfold recipeName Path.fileName?
    rw [hlast, htext]
    exact Utf8.decodeLossy_encode text
  have hspelled : Path.ofString text = .ofNames [name] := by
    rw [htext]
    exact congrArg Path.mk List.intercalate_singleton.symm
  refine ⟨r.recipeDir, text, rfl, ?_, htext.symm, ?_, fun t spot hwalk => ?_⟩
  · rw [← hrecipe]
    exact get?_frontendAttributes_filename r
  · rw [hspelled]
    exact components_recipeDir_join hlast
  · rw [hspelled]
    exact walk_recipeDir_join hlast hwalk

/-- A request whose recipe is spelled with a leading dot, two slashes in a row and a slash at its
end. -/
def spelledAtLength : BuildRequest where
  recipePath := .ofString "./ci//Dockerfile.release/"
  contextDir := .ofString "a"
  tags := [⟨"docker.io", "library/app", some "latest", none⟩]
  target := none
  platforms := ["linux/amd64"]
  buildArgs := .empty
  labels := .empty
  cacheDisabled := false

/-- A recipe spelled with `.`, a doubled and a trailing slash is taken apart and put together. -/
theorem spelledAtLength_reassembled :
    Path.components (.ofString "./ci//Dockerfile.release/") =
        [.here, .normal (Utf8.encode "ci"), .normal (Utf8.encode "Dockerfile.release")] ∧
      ∃ dir filename,
        (spelledAtLength.solveRequest "solve" "session").localDirs.lookup "dockerfile-dir" =
          some dir ∧
        (spelledAtLength.solveRequest "solve" "session").frontendAttrs.get? "filename" =
          some filename ∧
        (dir.join (.ofString filename)).components =
          [.here, .normal (Utf8.encode "ci"), .normal (Utf8.encode "Dockerfile.release")] := by
  have hcomponents : Path.components (.ofString "./ci//Dockerfile.release/") =
      [.here, .normal (Utf8.encode "ci"), .normal (Utf8.encode "Dockerfile.release")] := by
        decide +kernel
  have hlast : spelledAtLength.recipePath.components.getLast? =
      some (.normal (Utf8.encode "Dockerfile.release")) := by decide +kernel
  have hvalid : Utf8.isValid (Utf8.encode "Dockerfile.release") = true :=
    Utf8.isValid_iff.mpr ⟨_, rfl⟩
  obtain ⟨dir, filename, hdir, hfilename, -, hjoined, -⟩ :=
    recipe_reassembled spelledAtLength "solve" "session" hlast hvalid
  refine ⟨hcomponents, dir, filename, hdir, hfilename, ?_⟩
  rw [hjoined, if_neg (by decide +kernel), List.nil_append]
  exact hcomponents

end BuildRequest
end ImageBuild
