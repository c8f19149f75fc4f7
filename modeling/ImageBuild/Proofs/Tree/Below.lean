import ImageBuild.Proofs.Tree.Anchored
import ImageBuild.Proofs.Tree.Change

/-!
# `ImageBuild.Proofs.Tree.Below`: what is done below a destination

A path that was joined onto a destination is used in three ways: directories are made along it, a
file is opened at it, and that file is filled. `FileTree.ChangesBelow` says what becomes of the
tree on the way. It is changed one node at a time, and each node is put inside of what the
destination denotes by then or is a missing directory on the way to the destination. One lemma for
each operation shows that this is all it does, in every tree that the one in which the path was
checked has grown into: `makeDirectory_changesBelow`, `createAll_changesBelow`,
`openEmpty_changesBelow`, and `ChangesBelow.refill` for the file.

A destination that is there already has no missing directory on the way (`walk_ne_vacant`), so all
that is done is done inside of it (`ChangesBelow.within`). `FileTree.ChangesWithin` is that kind
of change for a fixed place. It leaves everything else alone, and removing the place removes all
that was done (`ChangesWithin.erase_eq`).
-/

set_option autoImplicit false

namespace ImageBuild.FileTree

variable {t t₁ t₂ : FileTree} {destination p : Path} {D loc : Location} {names : List Name}

/-! ### Changes in one place -/

/-- The tree is changed one node at a time, each of them at a place or below it. -/
inductive ChangesWithin (D : Location) (t : FileTree) : FileTree → Prop
  | refl : ChangesWithin D t t
  | put {t₁ : FileTree} {loc : Location} {n : Node} : ChangesWithin D t t₁ → D <+: loc →
    t₁.Fits loc n → ChangesWithin D t (t₁.set loc n)

namespace ChangesWithin

/-- The tree stays well-formed. -/
theorem wellFormed (h : ChangesWithin D t t₁) (hwf : t.WellFormed) : t₁.WellFormed := by
  induction h with
  | refl => exact hwf
  | put _ _ hfits ih => exact hfits.wellFormed ih

/-- Nothing of the tree gets lost. -/
theorem grows (h : ChangesWithin D t t₁) : t.GrowsInto t₁ := by
  induction h with
  | refl => exact .refl t
  | put _ _ hfits ih => exact ih.trans hfits.growsInto

/-- What is neither at the place nor below it stays as it is. -/
theorem lookup_eq (h : ChangesWithin D t t₁) (hout : ¬ D <+: loc) :
    t₁.lookup loc = t.lookup loc := by
  induction h with
  | refl => rfl
  | put _ hloc hfits ih =>
    rw [hfits.lookup_set_ne (by rintro rfl; exact hout hloc)]
    exact ih

/-- Removing the place removes all that was done. -/
theorem erase_eq (h : ChangesWithin D t t₁) : t₁.erase D = t.erase D := by
  induction h with
  | refl => rfl
  | put _ hloc _ ih => rw [erase_set_inside _ hloc]; exact ih

/-- Two changes after one another are one. -/
theorem trans (h : ChangesWithin D t t₁) (h' : ChangesWithin D t₁ t₂) : ChangesWithin D t t₂ := by
  induction h' with
  | refl => exact h
  | put _ hloc hfits ih => exact .put ih hloc hfits

/-- When directories were made after all that was done in a new place, then removing the place
leaves nothing but those directories. -/
theorem addsDirectories_erase (h : ChangesWithin D t t₁) (hwf : t.WellFormed)
    (hvacant : t.lookup D = none) (hadds : t₁.AddsDirectories t₂) :
    t.AddsDirectories (t₂.erase D) := by
  have hD : D ≠ [] := by
    rintro rfl
    cases hvacant
  have herase := lookup_erase_of_ne_nil t₂ hD
  -- What was there before is outside of the place.
  have hout : ∀ {loc : Location}, t.lookup loc ≠ none → ¬ D <+: loc := by
    rintro loc hloc ⟨below, rfl⟩
    obtain ⟨n, hn⟩ := Option.ne_none_iff_exists'.mp hloc
    by_cases hbelow : below = []
    · rw [hbelow, List.append_nil, hvacant] at hn
      cases hn
    · obtain ⟨m, hm⟩ := hwf.directory_of_lookup hbelow hn
      rw [hvacant] at hm
      cases hm
  have hkept : ∀ loc : Location, t.lookup loc ≠ none →
      (t₂.erase D).lookup loc = t.lookup loc := by
    intro loc hloc
    have hloc₁ := h.lookup_eq (hout hloc)
    rw [herase, if_neg (hout hloc), hadds.kept loc (by rwa [hloc₁]), hloc₁]
  refine ⟨hadds.wellFormed.erase hD, ⟨?_, ?_, ?_, ?_⟩, hkept, ?_⟩
  · exact hadds.grows.workdir.trans h.grows.workdir
  · intro loc m hm
    rw [hkept loc (by simp [hm]), hm]
  · intro loc m content hm
    exact ⟨m, content, by rw [hkept loc (by simp [hm]), hm]⟩
  · intro loc target
    constructor
    · intro hlink
      rw [herase] at hlink
      split at hlink
      · cases hlink
      · exact h.grows.link.mp (hadds.grows.link.mp hlink)
    · intro hlink
      rw [hkept loc (by simp [hlink]), hlink]
  · intro loc hloc
    rw [herase]
    split
    · exact Or.inl rfl
    · next hnot =>
      exact hadds.made loc (by rwa [h.lookup_eq hnot])

end ChangesWithin

/-! ### Changes below a destination -/

/-- The tree is changed one node at a time. A node is put inside of what the destination denotes
by then, or it is a missing directory on the way to the destination. -/
inductive ChangesBelow (destination : Path) (t : FileTree) : FileTree → Prop
  | refl : ChangesBelow destination t t
  | inside {t₁ : FileTree} {D loc : Location} {n : Node} : ChangesBelow destination t t₁ →
    t₁.directoryAt? destination = some D → D <+: loc → t₁.Fits loc n →
    ChangesBelow destination t (t₁.set loc n)
  | onTheWay {t₁ : FileTree} {q : Path} {dir : Location} {name : Name} {m : Mode} :
    ChangesBelow destination t t₁ → q.components <+: destination.components →
    t₁.walk false q = .ok (.vacant dir name) → t₁.Fits (dir ++ [name]) (.directory m) →
    ChangesBelow destination t (t₁.set (dir ++ [name]) (.directory m))

/-- There is no vacant spot on the way to a directory that is there. -/
theorem walk_ne_vacant (hD : t.directoryAt? destination = some D) {q : Path}
    (hq : q.components <+: destination.components) (dir : Location) (name : Name) :
    t.walk false q ≠ .ok (.vacant dir name) := by
  intro hwalk
  obtain ⟨htext, hvacant⟩ := walk_eq_ok_iff.mp hwalk
  rw [walkSegments_of_vacant hvacant] at hvacant
  obtain ⟨habs, more, hmore⟩ := Path.filter_steps_prefix (checkText_eq_ok_iff.mp htext).2.1 hq
  have hvacant := hvacant.follow_of_vacant.filter_steps
  obtain ⟨⟨k, harr⟩, -⟩ := directoryAt?_eq_some_iff.mp hD
  have hthere := harr.walks_end.filter_steps
  rw [← hmore] at hthere
  rw [startOf, habs, ← startOf] at hvacant
  -- The walk to the directory goes the same way first, and it gets somewhere.
  by_cases hne : more = []
  · subst hne
    rw [List.append_nil] at hthere
    cases hvacant.unique hthere
  · obtain ⟨k', E, hfirst, -⟩ := hthere.arrives hne
    cases hvacant.unique hfirst.walks_end

namespace ChangesBelow

/-- Two changes after one another are one. -/
theorem trans (h : ChangesBelow destination t t₁) (h' : ChangesBelow destination t₁ t₂) :
    ChangesBelow destination t t₂ := by
  induction h' with
  | refl => exact h
  | inside _ hD hloc hfits ih => exact .inside ih hD hloc hfits
  | onTheWay _ hq hwalk hfits ih => exact .onTheWay ih hq hwalk hfits

/-- The tree stays well-formed. -/
theorem wellFormed (h : ChangesBelow destination t t₁) (hwf : t.WellFormed) : t₁.WellFormed := by
  induction h with
  | refl => exact hwf
  | inside _ _ _ hfits ih | onTheWay _ _ _ hfits ih => exact hfits.wellFormed ih

/-- Nothing of the tree gets lost. -/
theorem grows (h : ChangesBelow destination t t₁) : t.GrowsInto t₁ := by
  induction h with
  | refl => exact .refl t
  | inside _ _ _ hfits ih | onTheWay _ _ _ hfits ih => exact ih.trans hfits.growsInto

/-- If the destination is there, all that is done is done inside of it. -/
theorem within (h : ChangesBelow destination t t₁) (hD : t.directoryAt? destination = some D) :
    ChangesWithin D t t₁ := by
  induction h with
  | refl => exact .refl
  | inside _ hD' hloc hfits ih =>
    rw [ih.grows.directoryAt? hD] at hD'
    cases hD'
    exact .put ih hloc hfits
  | onTheWay _ hq hwalk _ ih =>
    exact absurd hwalk (walk_ne_vacant (ih.grows.directoryAt? hD) hq _ _)

/-- Writing a file that is inside of what the destination denotes. -/
theorem refill (h : ChangesBelow destination t t₁) (hwf : t.WellFormed)
    (hD : t₁.directoryAt? destination = some D) (hloc : D <+: loc) {m : Mode} {content : Bytes}
    (hfile : t₁.lookup loc = some (.file m content)) (bytes : Bytes) (m' : Mode) :
    ChangesBelow destination t ((t₁.fill loc bytes).changeMode loc m') := by
  have hfits : t₁.Fits loc (.file m bytes) := .of_file (h.wellFormed hwf) hfile
  rw [fill_eq hfile, changeMode_eq hfits.lookup_set_self]
  exact .inside (.inside h hD hloc hfits) (hfits.growsInto.directoryAt? hD) hloc hfits.again

end ChangesBelow

/-! ### Operations at a joined path -/

/-- The paths that are made for a joined path: it, and those above it. They are on the way to the
destination, or they are the destination with a leading part of the names. -/
def IsAskedFor (destination : Path) (names : List Name) (p : Path) : Prop :=
  p.components <+: destination.components ∨
    ∃ first more, names = first ++ more ∧ first ≠ [] ∧ p = destination.join (.ofNames first)

/-- A path that was joined onto the destination is asked for. -/
theorem isAskedFor_join (destination : Path) (names : List Name) :
    IsAskedFor destination names (destination.join (.ofNames names)) := by
  by_cases hne : names = []
  · subst hne
    exact Or.inl (by simp [Path.components_join_nil])
  · exact Or.inr ⟨names, [], by simp, hne, rfl⟩

/-- So is the path above one, for the same names. -/
theorem IsAskedFor.parent? (hnames : ∀ n ∈ names, IsName n) {up : Path}
    (h : IsAskedFor destination names p) (hup : p.parent? = some up) :
    IsAskedFor destination names up := by
  rcases h with hlead | ⟨first, more, rfl, hne, rfl⟩
  · refine Or.inl ?_
    rw [Path.components_parent? hup]
    exact (List.dropLast_prefix _).trans hlead
  · rcases List.eq_nil_or_concat first with rfl | ⟨front, last, rfl⟩
    · exact absurd rfl hne
    · rw [List.concat_eq_append] at hnames hup ⊢
      have hall : ∀ n ∈ front ++ [last], IsName n := fun n hn =>
        hnames n (List.mem_append_left _ hn)
      by_cases hfront : front = []
      · -- Above the first name is the destination, perhaps spelled in another way.
        subst hfront
        refine Or.inl ?_
        rw [Path.components_parent? hup, Path.components_join hall (by simp)]
        simp
      · rw [Path.parent?_join hfront (fun n hn => hall n (by simp [hn]))
          (hall last (by simp))] at hup
        cases hup
        exact Or.inr ⟨front, last :: more, by simp, hfront, rfl⟩

section
variable (hwf : t.WellFormed) (hanchored : t.Anchored destination)
  (hchecked : t.Checked destination names)
include hwf hanchored hchecked

/-- Making one of the directories for a joined path, in any tree that the checked one has grown
into. -/
theorem makeDirectory_changesBelow (hp : IsAskedFor destination names p) (asked : Mode)
    (h : ChangesBelow destination t t₁) :
    ChangesBelow destination t (t₁.makeDirectory p asked).2 := by
  rcases t₁.makeDirectory_cases p asked with ⟨f, heq⟩ | ⟨dir, name, m, hwalk, hfits, heq⟩
  · rw [heq]; exact h
  · rw [heq]
    -- A directory on the way may be made anywhere; one below the destination is inside of it.
    rcases hp with hlead | ⟨first, more, rfl, hne, rfl⟩
    · rw [← components_withoutTrailingSlash] at hlead
      exact .onTheWay h hlead hwalk hfits
    · have hfirst := hchecked.of_append
      rw [withoutTrailingSlash_eq_self (Path.getLast?_join_ne_slash hfirst.isName hne _)] at hwalk
      obtain ⟨D, hD, hloc⟩ := hanchored.walk_below hwf h.grows hfirst hne hwalk
      exact .inside h hD hloc hfits

/-- Making a directory and those above it changes nothing but below the destination. -/
theorem createAll_changesBelow (hp : IsAskedFor destination names p)
    (h : ChangesBelow destination t t₁) : ChangesBelow destination t (t₁.createAll p).2 :=
  createAncestors_induction (fun hp hup => hp.parent? hchecked.isName hup)
    (fun h hp => makeDirectory_changesBelow hwf hanchored hchecked hp _ h) _ h hp

/-- Opening a file at a joined path. The file is inside of what the destination then denotes. -/
theorem openEmpty_changesBelow (mode : Mode) (h : ChangesBelow destination t t₁) :
    ChangesBelow destination t (t₁.openEmpty (destination.join (.ofNames names)) mode).2 ∧
    ∀ loc, (t₁.openEmpty (destination.join (.ofNames names)) mode).1 = .ok loc →
      ∃ D m, (t₁.openEmpty (destination.join (.ofNames names)) mode).2.directoryAt? destination =
          some D ∧ D <+: loc ∧
        (t₁.openEmpty (destination.join (.ofNames names)) mode).2.lookup loc =
          some (.file m []) := by
  rcases openEmpty_cases (h.wellFormed hwf) (destination.join (.ofNames names)) mode with
    ⟨f, hempty⟩ | ⟨spot, m, hlast, hwalk, hfits, hempty⟩
  · rw [hempty]
    exact ⟨h, by simp⟩
  · rw [hempty]
    -- A joined path without any name ends in a slash and is not opened.
    have hne : names ≠ [] := by
      rintro rfl
      have htext := (walk_join_nil_eq_ok_iff.mp hwalk).1
      exact hlast (Path.getLast?_join_nil (checkText_eq_ok_iff.mp htext).2.1)
    obtain ⟨D, hD, hloc⟩ := hanchored.walk_below hwf h.grows hchecked hne hwalk
    refine ⟨.inside h hD hloc hfits, fun loc heq => ?_⟩
    cases heq
    exact ⟨D, m, hfits.growsInto.directoryAt? hD, hloc, hfits.lookup_set_self⟩

end

end ImageBuild.FileTree
