import ImageBuild.Proofs.Request.Attributes
import Mathlib.Data.List.Forall2

/-!
# `ImageBuild.Proofs.Request.FirstOffence`: the first thing that is wrong is what is reported

`BuildOptions.build` goes through the tags, the recipe, the build arguments and the labels, and it
stops at the first offence. `Answers` says the same without an order of checking: each answer
comes with what has to be in order before it and with the one thing that is wrong, or it is a
request that has what was asked for (`IsMadeOf`).

* `mapM_eq_error_iff` and `mapM_eq_ok_iff`: a list whose elements are checked one after the other
  fails as its first bad element does, or every element passes. Tags, build arguments and labels
  are such lists.
* `keepsFirst_iff`: of equal platforms the first is kept, in the order of the options.
* `build_eq_iff_answers`: the options have exactly one answer, and that is what `build` returns.
-/

set_option autoImplicit false

namespace ImageBuild

/-! ### Checking a list one element after the other -/

open BuildOptions (bind_eq_ok_iff bind_eq_error_iff)

section
variable {α β : Type} {P : α → Prop} {f : α → Except BuildFault β} {x : α} {xs : List α}
  {fault : BuildFault}

/-- The first element of a list that has the property. -/
def IsFirst (P : α → Prop) (xs : List α) (x : α) : Prop :=
  ∃ before after, xs = before ++ x :: after ∧ (∀ y ∈ before, ¬ P y) ∧ P x

/-- The first of a list that offends is its head, or the head does not offend and it is the first
of the rest. -/
theorem isFirst_cons_iff {y : α} : IsFirst P (y :: xs) x ↔ (x = y ∧ P y) ∨
    (¬ P y ∧ IsFirst P xs x) := by
  constructor
  · rintro ⟨before, after, hxs, hbefore, hx⟩
    cases before with
    | nil =>
      rw [List.nil_append, List.cons.injEq] at hxs
      rw [hxs.1]
      exact Or.inl ⟨rfl, hx⟩
    | cons first more =>
      rw [List.cons_append, List.cons.injEq] at hxs
      rw [hxs.1]
      obtain ⟨hfirst, hmore⟩ := List.forall_mem_cons.mp hbefore
      exact Or.inr ⟨hfirst, more, after, hxs.2, hmore, hx⟩
  · rintro (⟨rfl, hx⟩ | ⟨hy, before, after, rfl, hbefore, hx⟩)
    · exact ⟨[], xs, rfl, by simp, hx⟩
    · exact ⟨y :: before, after, rfl, List.forall_mem_cons.mpr ⟨hy, hbefore⟩, hx⟩

/-- All elements pass, and each gives its own result. -/
theorem mapM_eq_ok_iff {ys : List β} :
    xs.mapM f = .ok ys ↔ List.Forall₂ (fun x y => f x = .ok y) xs ys := by
  induction xs generalizing ys with
  | nil => cases ys <;> simp [pure, Except.pure]
  | cons x rest ih =>
    simp only [List.mapM_cons, bind_eq_ok_iff]
    constructor
    · rintro ⟨y, hy, more, hmore, ⟨rfl⟩⟩
      exact .cons hy (ih.mp hmore)
    · intro h
      cases h with
      | cons hy hmore => exact ⟨_, hy, _, ih.mpr hmore, rfl⟩

/-- All elements pass if none of them fails. -/
theorem exists_mapM_eq_ok_iff :
    (∃ ys, xs.mapM f = .ok ys) ↔ ∀ x ∈ xs, ¬ ∃ fault, f x = .error fault := by
  induction xs with
  | nil => simp [pure, Except.pure]
  | cons x rest ih =>
    simp only [List.mapM_cons, bind_eq_ok_iff, List.forall_mem_cons, ← ih]
    constructor
    · rintro ⟨_, y, hy, more, hmore, -⟩
      refine ⟨fun ⟨fault, hfault⟩ => ?_, more, hmore⟩
      rw [hy] at hfault
      cases hfault
    · rintro ⟨hx, more, hmore⟩
      cases hy : f x with
      | error fault => exact absurd ⟨fault, hy⟩ hx
      | ok y => exact ⟨y :: more, y, rfl, more, hmore, rfl⟩

/-- The first element that fails decides how the list fails. -/
theorem mapM_eq_error_iff : xs.mapM f = .error fault ↔
    ∃ x, IsFirst (fun x => ∃ fault, f x = .error fault) xs x ∧ f x = .error fault := by
  induction xs with
  | nil =>
    refine iff_of_false (by simp [pure, Except.pure]) ?_
    rintro ⟨x, ⟨before, after, hxs, -⟩, -⟩
    simp at hxs
  | cons x rest ih =>
    -- The elements behind the first one only count if it passes.
    have hrest : ∀ {y : β}, (∃ more, rest.mapM f = .ok more ∧
        (pure (y :: more) : Except BuildFault (List β)) = .error fault) ↔ False :=
      iff_of_false (fun ⟨_, _, h⟩ => by cases h) not_false
    simp only [List.mapM_cons, bind_eq_error_iff, isFirst_cons_iff, hrest, or_false, ih]
    cases hx : f x with
    | error other => simp [hx]
    | ok y => simp

end

namespace BuildOptions

variable {t : FileTree} {hostPlatform : String} {o : BuildOptions} {r : BuildRequest}
  {kind : EntryKind} {entry key value : String} {entries : List String} {fault : BuildFault}
  {pairs : List (String × String)}

/-! ### Tags -/

/-- The tag is no reference. -/
def IsRejected (tag : String) : Prop := ∃ defect, Reference.parseTagged tag = .error defect

/-- The reference of one tag. -/
def readTag (tag : String) : Except BuildFault Reference :=
  match Reference.parseTagged tag with
  | .error defect => .error (.invalidReference tag defect)
  | .ok r => .ok r

/-- A tag is accepted as the reference that it is read as. -/
theorem readTag_eq_ok_iff {tag : String} {reference : Reference} :
    readTag tag = .ok reference ↔ Reference.parseTagged tag = .ok reference := by
  unfold readTag
  cases Reference.parseTagged tag <;> simp

/-- The fault of a tag that is refused names the tag and what is wrong with it. -/
theorem readTag_eq_error_iff {tag : String} : readTag tag = .error fault ↔
    ∃ defect, Reference.parseTagged tag = .error defect ∧
      fault = .invalidReference tag defect := by
  unfold readTag
  cases Reference.parseTagged tag <;> simp [eq_comm]

/-- The same without the fault. -/
theorem exists_readTag_eq_error_iff {tag : String} :
    (∃ fault, readTag tag = .error fault) ↔ IsRejected tag := by
  simp [readTag_eq_error_iff, IsRejected]

/-- Tags are read one after the other up to the first that is refused. -/
theorem parseTags_eq_mapM (tags : List String) : parseTags tags = tags.mapM readTag := by
  induction tags with
  | nil => rfl
  | cons tag rest ih =>
    rw [List.mapM_cons, ← ih, parseTags]
    unfold readTag
    cases Reference.parseTagged tag with
    | error defect => rfl
    | ok reference => cases parseTags rest <;> rfl

/-- All tags are accepted exactly if each is, in the same order. -/
theorem parseTags_eq_ok_iff {tags : List String} {references : List Reference} :
    parseTags tags = .ok references ↔
      List.Forall₂ (fun tag reference => Reference.parseTagged tag = .ok reference) tags
        references := by
  rw [parseTags_eq_mapM, mapM_eq_ok_iff]
  simp only [readTag_eq_ok_iff]

/-- The first tag that is no reference is reported, with what is wrong with it. -/
theorem parseTags_eq_error_iff {tags : List String} :
    parseTags tags = .error fault ↔ ∃ tag defect, IsFirst IsRejected tags tag ∧
      Reference.parseTagged tag = .error defect ∧ fault = .invalidReference tag defect := by
  simp only [parseTags_eq_mapM, mapM_eq_error_iff, exists_readTag_eq_error_iff]
  simp only [readTag_eq_error_iff, exists_and_left]

/-- All tags can be read if none of them is rejected. -/
theorem exists_parseTags_iff {tags : List String} :
    (∃ references, parseTags tags = .ok references) ↔ ∀ tag ∈ tags, ¬ IsRejected tag := by
  simp only [parseTags_eq_mapM, exists_mapM_eq_ok_iff, exists_readTag_eq_error_iff]

/-! ### Entries -/

/-- The entry has no `=`, or nothing in front of it. -/
def IsMalformed (entry : String) : Prop := '=' ∉ entry.toList ∨ ∃ value, entry = "=" ++ value

/-- An entry with an `=` says something, if perhaps of the empty key. -/
theorem exists_says (h : '=' ∈ entry.toList) : ∃ key value, Says entry key value := by
  obtain ⟨first, rest, hentry, hfirst, hrest⟩ :=
    Reference.Grammar.exists_cut (· != '=') entry.toList
  cases rest with
  | nil =>
    rw [List.append_nil] at hentry
    rw [hentry] at h
    exact absurd (hfirst _ h) (by decide)
  | cons c behind =>
    obtain rfl : c = '=' := by simpa using hrest c rfl
    refine ⟨.ofList first, .ofList behind, String.toList_injective (by simpa using hentry), ?_⟩
    rw [String.toList_ofList]
    exact fun hmem => absurd (hfirst _ hmem) (by decide)

/-- The entries that cannot be cut are the malformed ones. -/
theorem splitEntry_eq_none_iff : splitEntry entry = none ↔ IsMalformed entry := by
  constructor
  · intro h
    by_cases hmem : '=' ∈ entry.toList
    · obtain ⟨key, value, hsaid⟩ := exists_says hmem
      have hkey : key = "" := by
        by_contra hne
        rw [splitEntry_eq_some_iff.mpr ⟨hsaid, hne⟩] at h
        cases h
      refine Or.inr ⟨value, ?_⟩
      rw [hsaid.eq, hkey, String.empty_append]
    · exact Or.inl hmem
  · intro h
    refine Option.eq_none_iff_forall_ne_some.mpr fun pair hpair => ?_
    obtain ⟨hsaid, hne⟩ := splitEntry_eq_some_iff.mp hpair
    rcases h with hnone | ⟨value, rfl⟩
    · refine hnone ?_
      rw [hsaid.toList_eq]
      exact List.mem_append_right _ List.mem_cons_self
    · -- The first `=` of the entry is its first character.
      have hempty : Says ("=" ++ value) "" value := ⟨by rw [String.empty_append], by simp⟩
      exact hne (hsaid.unique hempty).1

/-- Key and value of one entry, or that it is malformed. -/
def readEntry (kind : EntryKind) (entry : String) : Except BuildFault (String × String) :=
  match splitEntry entry with
  | none => .error (.invalidKeyValue kind entry)
  | some pair => .ok pair

/-- The fault of an entry that is refused names the entry. -/
theorem readEntry_eq_error_iff :
    readEntry kind entry = .error fault ↔ IsMalformed entry ∧
    fault = .invalidKeyValue kind entry := by
  rw [← splitEntry_eq_none_iff]
  unfold readEntry
  cases splitEntry entry <;> simp [eq_comm]

/-- The same without the fault. -/
theorem exists_readEntry_eq_error_iff :
    (∃ fault, readEntry kind entry = .error fault) ↔ IsMalformed entry := by
  simp [readEntry_eq_error_iff]

/-- Entries are read one after the other up to the first that is refused. -/
theorem splitEntries_eq_mapM (kind : EntryKind) (entries : List String) :
    splitEntries kind entries = entries.mapM (readEntry kind) := by
  induction entries with
  | nil => rfl
  | cons entry rest ih =>
    rw [List.mapM_cons, ← ih, splitEntries]
    unfold readEntry
    cases splitEntry entry with
    | none => rfl
    | some pair => cases splitEntries kind rest <;> rfl

/-- The first malformed entry is reported. -/
theorem splitEntries_eq_error_iff : splitEntries kind entries = .error fault ↔
    ∃ entry, IsFirst IsMalformed entries entry ∧ fault = .invalidKeyValue kind entry := by
  simp only [splitEntries_eq_mapM, mapM_eq_error_iff, exists_readEntry_eq_error_iff]
  constructor
  · rintro ⟨entry, hfirst, hentry⟩
    exact ⟨entry, hfirst, (readEntry_eq_error_iff.mp hentry).2⟩
  · rintro ⟨entry, hfirst, hfault⟩
    obtain ⟨_, _, _, _, hentry⟩ := id hfirst
    exact ⟨entry, hfirst, readEntry_eq_error_iff.mpr ⟨hentry, hfault⟩⟩

/-- All entries can be cut if none of them is malformed. -/
theorem exists_splitEntries_iff :
    (∃ pairs, splitEntries kind entries = .ok pairs) ↔ ∀ entry ∈ entries,
      ¬ IsMalformed entry := by
  simp only [splitEntries_eq_mapM, exists_mapM_eq_ok_iff, exists_readEntry_eq_error_iff]

/-! ### Platforms -/

/-- `kept` has the elements of `asked`, each of them once and where it comes first. -/
structure KeepsFirst (asked kept : List String) : Prop where
  mem_iff : ∀ x, x ∈ kept ↔ x ∈ asked
  order : kept.Pairwise fun x y => asked.idxOf x < asked.idxOf y

/-- Nothing is kept of nothing. -/
theorem KeepsFirst.nil : KeepsFirst [] [] := ⟨by simp, List.Pairwise.nil⟩

/-- An element that was there before is left out, and a new one comes last. -/
theorem KeepsFirst.concat {asked kept : List String} (h : KeepsFirst asked kept) (x : String) :
    KeepsFirst (asked ++ [x]) (if kept.contains x then kept else kept ++ [x]) := by
  have hbefore : ∀ y ∈ kept, (asked ++ [x]).idxOf y = asked.idxOf y := by
    intro y hy
    exact List.idxOf_append_of_mem ((h.mem_iff y).mp hy)
  have horder : kept.Pairwise fun y z => (asked ++ [x]).idxOf y < (asked ++ [x]).idxOf z := by
    refine h.order.imp_of_mem fun hy hz hlt => ?_
    rw [hbefore _ hy, hbefore _ hz]
    exact hlt
  -- What was kept keeps its places, and `x` stands behind all of it if it is new.
  by_cases hx : x ∈ kept
  · rw [if_pos (by simpa using hx)]
    refine ⟨fun y => ?_, horder⟩
    rw [List.mem_append, List.mem_singleton, h.mem_iff]
    constructor
    · exact Or.inl
    · rintro (hy | rfl)
      · exact hy
      · exact (h.mem_iff y).mp hx
  · rw [if_neg (by simpa using hx)]
    have hnew : x ∉ asked := fun hmem => hx ((h.mem_iff x).mpr hmem)
    refine ⟨fun y => ?_, List.pairwise_append.mpr ⟨horder, List.pairwise_singleton _ _, ?_⟩⟩
    · rw [List.mem_append, List.mem_append, h.mem_iff]
    · intro y hy z hz
      obtain rfl := List.mem_singleton.mp hz
      rw [hbefore y hy, List.idxOf_append_of_notMem hnew]
      have hlt : asked.idxOf y < asked.length :=
        List.idxOf_lt_length_iff.mpr ((h.mem_iff y).mp hy)
      omega

/-- Leaving repeats out keeps the first of each. -/
theorem keepsFirst_withoutRepeats (asked : List String) :
    KeepsFirst asked (withoutRepeats asked) := by
  -- The fold carries what was kept of the elements so far.
  have hfold : ∀ (rest seen kept : List String), KeepsFirst seen kept → KeepsFirst (seen ++ rest)
      (rest.foldl (fun kept x => if kept.contains x then kept else kept ++ [x]) kept) := by
    intro rest
    induction rest with
    | nil =>
      intro seen kept h
      rwa [List.append_nil]
    | cons x rest ih =>
      intro seen kept h
      have hnext := ih (seen ++ [x]) _ (h.concat x)
      rwa [List.append_assoc, List.singleton_append] at hnext
  exact hfold asked [] [] .nil

/-- There is one way to keep the first of equal elements. -/
theorem keepsFirst_iff {asked kept : List String} : KeepsFirst asked kept ↔
    kept = withoutRepeats asked := by
  have hunique : ∀ {kept kept' : List String}, KeepsFirst asked kept → KeepsFirst asked kept' →
      kept = kept' := by
    intro kept kept' h h'
    have hperm : kept.Perm kept' := by
      refine (List.perm_ext_iff_of_nodup ?_ ?_).mpr fun x =>
        (h.mem_iff x).trans (h'.mem_iff x).symm
      · exact h.order.imp fun hlt heq => absurd (heq ▸ hlt) (lt_irrefl _)
      · exact h'.order.imp fun hlt heq => absurd (heq ▸ hlt) (lt_irrefl _)
    refine hperm.eq_of_pairwise (fun x y _ _ hlt hgt => ?_) h.order h'.order
    exact absurd hlt (lt_asymm hgt)
  constructor
  · intro h
    exact hunique h (keepsFirst_withoutRepeats asked)
  · rintro rfl
    exact keepsFirst_withoutRepeats asked

/-- These are the platforms that are asked for, without repetition, or the one at hand. -/
inductive HasPlatforms (hostPlatform : String) (asked : List String) : List String → Prop
  | host : asked = [] → HasPlatforms hostPlatform asked [hostPlatform]
  | asked {kept : List String} : asked ≠ [] → KeepsFirst asked kept →
    HasPlatforms hostPlatform asked kept

/-- The platforms of a request are certain. -/
theorem hasPlatforms_iff {asked platforms : List String} :
    HasPlatforms hostPlatform asked platforms ↔ platforms = platformsOr hostPlatform asked := by
  unfold platformsOr
  have hkeeps := keepsFirst_withoutRepeats asked
  -- Nothing is kept only where nothing is asked for.
  have hnil : withoutRepeats asked = [] ↔ asked = [] := by
    simp only [List.eq_nil_iff_forall_not_mem, hkeeps.mem_iff]
  split
  · next hnone =>
    constructor
    · rintro (⟨-⟩ | ⟨hne, -⟩)
      · rfl
      · exact absurd (hnil.mp hnone) hne
    · rintro rfl
      exact .host (hnil.mp hnone)
  · next hsome =>
    constructor
    · rintro (⟨hempty⟩ | ⟨-, hkept⟩)
      · exact absurd (hnil.mpr hempty) hsome
      · exact keepsFirst_iff.mp hkept
    · rintro rfl
      exact .asked (fun hempty => hsome (hnil.mpr hempty)) hkeeps

/-! ### The recipe -/

/-- The options name no recipe, or the empty path. -/
def NamesNoRecipe (o : BuildOptions) : Prop := o.recipe = none ∨ o.recipe = some ⟨[]⟩

/-- The recipe that is named, or the default one in the context. -/
inductive HasRecipe (t : FileTree) (o : BuildOptions) : Path → Prop
  | named {recipe : Path} : o.recipe = some recipe → recipe ≠ ⟨[]⟩ → HasRecipe t o recipe
  | default {recipe : Path} : o.NamesNoRecipe →
    t.joinWithin o.contextDir (.ofString "Dockerfile") = .ok recipe → HasRecipe t o recipe

/-- The name of the recipe where none is given. -/
theorem defaultRecipe_eq : (⟨Context.defaultRecipe⟩ : Path) = .ofString "Dockerfile" := rfl

/-- The recipe where none is given is the one below the context. -/
theorem defaultRecipeIn_eq_ok_iff {contextDir recipe : Path} :
    defaultRecipeIn t contextDir = .ok recipe ↔
      t.joinWithin contextDir (.ofString "Dockerfile") = .ok recipe := by
  unfold defaultRecipeIn
  rw [defaultRecipe_eq]
  cases t.joinWithin contextDir (.ofString "Dockerfile") <;> simp

/-- It cannot be joined onto the context exactly for the cause that the fault names. -/
theorem defaultRecipeIn_eq_error_iff {contextDir : Path} :
    defaultRecipeIn t contextDir = .error fault ↔ ∃ cause,
      t.joinWithin contextDir (.ofString "Dockerfile") = .error cause ∧
        fault = .recipePath (.escape cause) := by
  unfold defaultRecipeIn
  rw [defaultRecipe_eq]
  cases t.joinWithin contextDir (.ofString "Dockerfile") <;> simp [eq_comm]

/-- A recipe is taken as it is given, and none is given if it is the empty path. -/
theorem recipeIn_cases (t : FileTree) (o : BuildOptions) :
    (o.NamesNoRecipe ∧ o.recipeIn t = defaultRecipeIn t o.contextDir) ∨
      ∃ recipe, o.recipe = some recipe ∧ recipe ≠ ⟨[]⟩ ∧ o.recipeIn t = .ok recipe := by
  unfold recipeIn NamesNoRecipe
  cases o.recipe with
  | none => exact Or.inl ⟨Or.inl rfl, rfl⟩
  | some recipe =>
    obtain ⟨bytes⟩ := recipe
    cases bytes with
    | nil => exact Or.inl ⟨Or.inr rfl, rfl⟩
    | cons b rest => exact Or.inr ⟨⟨b :: rest⟩, rfl, by simp, rfl⟩

/-- The recipe is found exactly as the specification says. -/
theorem recipeIn_eq_ok_iff {recipe : Path} : o.recipeIn t = .ok recipe ↔
    o.HasRecipe t recipe := by
  rcases recipeIn_cases t o with ⟨hnone, heq⟩ | ⟨named, hnamed, hne, heq⟩
  · rw [heq, defaultRecipeIn_eq_ok_iff]
    constructor
    · exact .default hnone
    · rintro (⟨hsome, hne⟩ | ⟨-, hjoin⟩)
      · rcases hnone with hnone | hnone <;> simp_all
      · exact hjoin
  · rw [heq]
    constructor
    · rintro ⟨rfl⟩
      exact .named hnamed hne
    · rintro (⟨hsome, -⟩ | ⟨hnone, -⟩)
      · rw [hnamed] at hsome
        rw [Option.some.inj hsome]
      · rcases hnone with hnone | hnone <;> simp_all

/-- Only a recipe that is not given can fail to be found. -/
theorem recipeIn_eq_error_iff : o.recipeIn t = .error fault ↔ o.NamesNoRecipe ∧ ∃ cause,
    t.joinWithin o.contextDir (.ofString "Dockerfile") = .error cause ∧
      fault = .recipePath (.escape cause) := by
  rcases recipeIn_cases t o with ⟨hnone, heq⟩ | ⟨named, hnamed, hne, heq⟩
  · rw [heq, defaultRecipeIn_eq_error_iff]
    simp [hnone]
  · rw [heq]
    refine iff_of_false (fun h => by cases h) ?_
    rintro ⟨hnone | hnone, -⟩ <;> simp_all

/-! ### The answer to some options -/

/-- A map that says what a list of entries says in the end. -/
structure SaysAll (entries : List String) (m : Attributes) : Prop where
  sorted : m.IsSorted
  get?_iff : ∀ key value, m.get? key = some value ↔ LastSays entries key value

/-- The attributes that say what all entries say are those made of the entries. -/
theorem saysAll_iff {m : Attributes} (h : splitEntries kind entries = .ok pairs) :
    SaysAll entries m ↔ m = .ofList pairs := by
  have hget : ∀ key value, (Attributes.ofList pairs).get? key = some value ↔
      LastSays entries key value := by
    intro key value
    rw [Attributes.get?_ofList, lookup_reverse_eq_some_iff h]
  constructor
  · intro hall
    refine hall.sorted.ext (Attributes.isSorted_ofList pairs) fun key value => ?_
    rw [hall.get?_iff, hget]
  · rintro rfl
    exact ⟨Attributes.isSorted_ofList pairs, hget⟩

/-- The request has what the options ask for: their tags in order, each of them read, the recipe
and the context, the platforms without repetition, and what the entries say in the end. -/
structure IsMadeOf (t : FileTree) (hostPlatform : String) (o : BuildOptions) (r : BuildRequest) :
    Prop where
  tags : List.Forall₂ (fun tag reference => Reference.parseTagged tag = .ok reference)
    o.tags r.tags
  recipe : o.HasRecipe t r.recipePath
  context : r.contextDir = o.contextDir
  target : r.target = o.target
  platforms : HasPlatforms hostPlatform o.platforms r.platforms
  buildArgs : SaysAll o.buildArgs r.buildArgs
  labels : SaysAll o.labels r.labels
  cache : r.cacheDisabled = o.noCache

/-- What some options are answered: the first thing that is wrong with them, or the request that
they describe. -/
inductive Answers (t : FileTree) (hostPlatform : String) (o : BuildOptions) :
    Except BuildFault BuildRequest → Prop
  | missingTags : o.tags = [] → Answers t hostPlatform o (.error .missingTags)
  | invalidReference {tag : String} {defect : Reference.Defect} :
    IsFirst IsRejected o.tags tag → Reference.parseTagged tag = .error defect →
    Answers t hostPlatform o (.error (.invalidReference tag defect))
  | recipePath {cause : EscapeFault} :
    o.tags ≠ [] → (∀ tag ∈ o.tags, ¬ IsRejected tag) → o.NamesNoRecipe →
    t.joinWithin o.contextDir (.ofString "Dockerfile") = .error cause →
    Answers t hostPlatform o (.error (.recipePath (.escape cause)))
  | invalidBuildArg {entry : String} {recipe : Path} :
    o.tags ≠ [] → (∀ tag ∈ o.tags, ¬ IsRejected tag) → o.HasRecipe t recipe →
    IsFirst IsMalformed o.buildArgs entry →
    Answers t hostPlatform o (.error (.invalidKeyValue .buildArg entry))
  | invalidLabel {entry : String} {recipe : Path} :
    o.tags ≠ [] → (∀ tag ∈ o.tags, ¬ IsRejected tag) → o.HasRecipe t recipe →
    (∀ entry ∈ o.buildArgs, ¬ IsMalformed entry) → IsFirst IsMalformed o.labels entry →
    Answers t hostPlatform o (.error (.invalidKeyValue .label entry))
  | request {r : BuildRequest} :
    o.tags ≠ [] → (∀ entry ∈ o.buildArgs, ¬ IsMalformed entry) →
      (∀ entry ∈ o.labels, ¬ IsMalformed entry) →
    o.IsMadeOf t hostPlatform r → Answers t hostPlatform o (.ok r)

/-- The checks in the order in which they are made: each of them fails only where those before it
succeed. -/
theorem build_eq_error_iff : o.build t hostPlatform = .error fault ↔
    (o.tags = [] ∧ fault = .missingTags) ∨ (o.tags ≠ [] ∧ (parseTags o.tags = .error fault ∨
      ((∃ tags, parseTags o.tags = .ok tags) ∧ (o.recipeIn t = .error fault ∨
        ((∃ recipe, o.recipeIn t = .ok recipe) ∧
          (splitEntries .buildArg o.buildArgs = .error fault ∨
          ((∃ pairs, splitEntries .buildArg o.buildArgs = .ok pairs) ∧
            splitEntries .label o.labels = .error fault))))))) := by
  unfold build
  by_cases htags : o.tags = []
  · rw [if_pos (List.isEmpty_iff.mpr htags)]
    show Except.error BuildFault.missingTags = .error fault ↔ _
    simp [htags, eq_comm]
  · rw [if_neg fun h => htags (List.isEmpty_iff.mp h)]
    simp only [ne_eq, htags, not_false_eq_true, true_and, false_and, false_or,
      bind_eq_error_iff, pure, Except.pure, reduceCtorEq, and_false, exists_false, or_false,
      exists_and_right]

/-- A fault is an answer exactly if it is the first one that the checks meet. -/
theorem build_eq_error_iff_answers :
    o.build t hostPlatform = .error fault ↔ o.Answers t hostPlatform (.error fault) := by
  simp only [build_eq_error_iff, parseTags_eq_error_iff, exists_parseTags_iff,
    recipeIn_eq_error_iff, recipeIn_eq_ok_iff, splitEntries_eq_error_iff, exists_splitEntries_iff]
  -- The checks come in the order of the tags, the recipe, the arguments and the labels.
  constructor
  · rintro (⟨htags, rfl⟩ | ⟨htags, ⟨tag, defect, hfirst, hdefect, rfl⟩ | ⟨hread, hrest⟩⟩)
    · exact .missingTags htags
    · exact .invalidReference hfirst hdefect
    · rcases hrest with ⟨hnone, cause, hcause, rfl⟩ | ⟨⟨recipe, hrecipe⟩, hentries⟩
      · exact .recipePath htags hread hnone hcause
      · rcases hentries with ⟨entry, hfirst, rfl⟩ | ⟨hargs, entry, hfirst, rfl⟩
        · exact .invalidBuildArg htags hread hrecipe hfirst
        · exact .invalidLabel htags hread hrecipe hargs hfirst
  · intro h
    cases h with
    | missingTags htags => exact Or.inl ⟨htags, rfl⟩
    | @invalidReference tag defect hfirst hdefect =>
      have htags : o.tags ≠ [] := by
        obtain ⟨before, after, heq, -⟩ := hfirst
        simp [heq]
      exact Or.inr ⟨htags, Or.inl ⟨tag, defect, hfirst, hdefect, rfl⟩⟩
    | @recipePath cause htags hread hnone hcause =>
      exact Or.inr ⟨htags, Or.inr ⟨hread, Or.inl ⟨hnone, cause, hcause, rfl⟩⟩⟩
    | @invalidBuildArg entry recipe htags hread hrecipe hfirst =>
      exact Or.inr ⟨htags,
        Or.inr ⟨hread, Or.inr ⟨⟨recipe, hrecipe⟩, Or.inl ⟨entry, hfirst, rfl⟩⟩⟩⟩
    | @invalidLabel entry recipe htags hread hrecipe hargs hfirst =>
      exact Or.inr ⟨htags,
        Or.inr ⟨hread, Or.inr ⟨⟨recipe, hrecipe⟩, Or.inr ⟨hargs, entry, hfirst, rfl⟩⟩⟩⟩

/-- A request is an answer exactly if no check fails and it has what the options ask for. -/
theorem build_eq_ok_iff_answers :
    o.build t hostPlatform = .ok r ↔ o.Answers t hostPlatform (.ok r) := by
  rw [build_eq_ok_iff]
  constructor
  · rintro ⟨htags, references, recipe, buildArgs, labels, hread, hrecipe, hargs, hlabels, rfl⟩
    refine .request htags (exists_splitEntries_iff.mp ⟨_, hargs⟩)
      (exists_splitEntries_iff.mp ⟨_, hlabels⟩) ?_
    exact ⟨parseTags_eq_ok_iff.mp hread, recipeIn_eq_ok_iff.mp hrecipe, rfl, rfl,
      hasPlatforms_iff.mpr rfl,
      (saysAll_iff hargs).mpr rfl, (saysAll_iff hlabels).mpr rfl, rfl⟩
  · intro h
    cases h with
    | request htags hargs hlabels hmade =>
      obtain ⟨buildArgs, hargs⟩ := exists_splitEntries_iff.mpr hargs
      obtain ⟨labels, hlabels⟩ := exists_splitEntries_iff.mpr hlabels
      refine ⟨htags, r.tags, r.recipePath, buildArgs, labels, parseTags_eq_ok_iff.mpr hmade.tags,
        recipeIn_eq_ok_iff.mpr hmade.recipe, hargs, hlabels, ?_⟩
      -- Every field of the request is told by what the options ask for.
      rw [← hasPlatforms_iff.mp hmade.platforms, ← (saysAll_iff hargs).mp hmade.buildArgs,
        ← (saysAll_iff hlabels).mp hmade.labels, ← hmade.context, ← hmade.target, ← hmade.cache]

/-- Checking some options returns the one answer that there is to them. The first offence is
reported, where missing tags come before tags, tags before the recipe, the recipe before build
arguments, and these before labels; without any there is a request, which has what the options ask
for. -/
theorem build_eq_iff_answers (t : FileTree) (hostPlatform : String) (o : BuildOptions)
    (answer : Except BuildFault BuildRequest) :
    o.build t hostPlatform = answer ↔ o.Answers t hostPlatform answer := by
  cases answer with
  | error fault => exact build_eq_error_iff_answers
  | ok r => exact build_eq_ok_iff_answers

/-- Of a build argument and a label that are both malformed, the build argument is reported. -/
example : { ofContext (.ofString "a") with
      recipe := some (.ofString "r"), tags := ["app"], buildArgs := ["K=1", "=2"], labels :=
  ["none"] }.build
    ⟨[], []⟩ "linux/amd64" = .error (.invalidKeyValue .buildArg "=2") := by
  decide +kernel

end BuildOptions
end ImageBuild
