import ImageBuild.Proofs.Tree.Below

/-!
# `ImageBuild.Proofs.Tree.Additions`: trees to which something was added

`FileTree.GrowsInto` says what stays when a tree grows. `FileTree.OnlyAdds` says what is new.
Files may have been written in some places, directories may have been made in others, and apart
from that the two trees are equal. Additions follow one another (`OnlyAdds.trans`), and a single
node that is put somewhere is one (`OnlyAdds.of_put`).

The places are told by the paths that lead there. `FileTree.Leads` is what holds of a path from
the time at which something is put at it, because a tree that grows keeps what its paths lead to
(`Leads.grow`). So making a directory with all that is missing above it adds directories where the
paths lead that it is made of (`addsDirectoriesAt_createAll`). For a path that was joined onto a
destination these are the paths of `IsAskedFor`, and in a tree in which the names pass the check,
a joined path leads to the place that its names spell (`Checked.loc_of_leads`).
-/

set_option autoImplicit false

namespace ImageBuild.FileTree

variable {t t₁ t₂ : FileTree} {destination p : Path} {loc : Location} {names : List Name}

/-! ### Where paths lead -/

/-- The path leads to something at the location, links followed. -/
def Leads (t : FileTree) (p : Path) (loc : Location) : Prop :=
  ∃ n, t.walk true p = .ok (.node loc n)

/-- A path leads to the same place in a tree that has grown. -/
theorem Leads.grow (h : t.Leads p loc) (hwf : t.WellFormed) (hg : t.GrowsInto t₁) :
    t₁.Leads p loc := by
  obtain ⟨n, hwalk⟩ := h
  obtain ⟨n', -, hwalk'⟩ := hg.walk hwalk (hwf.lookup_of_walk hwalk)
  exact ⟨n', hwalk'⟩

/-- One of these paths leads to the location. -/
def LeadsBy (t : FileTree) (isAsked : Path → Prop) (loc : Location) : Prop :=
  ∃ q, isAsked q ∧ t.Leads q loc

/-- So does one of several paths. -/
theorem LeadsBy.grow {isAsked : Path → Prop} (h : t.LeadsBy isAsked loc) (hwf : t.WellFormed)
    (hg : t.GrowsInto t₁) : t₁.LeadsBy isAsked loc := by
  obtain ⟨q, hq, hleads⟩ := h
  exact ⟨q, hq, hleads.grow hwf hg⟩

/-- A directory that takes the vacant spot at the end of a path is where the path then leads. -/
theorem leads_of_made {dir : Location} {name : Name} {m : Mode}
    (h : t.walk false p = .ok (.vacant dir name)) (hg : t.GrowsInto t₁)
    (hm : t₁.lookup (dir ++ [name]) = some (.directory m)) : t₁.Leads p (dir ++ [name]) := by
  obtain ⟨htext, hwalks⟩ := walk_eq_ok_iff.mp h
  have hmade := hwalks.follow_of_vacant.directory_of_made hg hm
  rw [← hg.workdir] at hmade
  exact ⟨_, walk_eq_ok_iff.mpr ⟨htext, hmade⟩⟩

/-- Checked names lead to the place that they spell in the directory that the root denotes. -/
theorem Checked.loc_of_leads (h : t.Checked destination names)
    (hl : t.Leads (destination.join (.ofNames names)) loc) :
    ∃ D, t.directoryAt? destination = some D ∧ loc = D ++ names := by
  obtain ⟨n, hwalk⟩ := hl
  obtain ⟨D, hD, hloc, -⟩ := h.walk hwalk
  exact ⟨D, hD, hloc⟩

/-! ### Additions -/

/-- The tree has become another one in which files may have been written in some places and
directories may have been made in some places. Nothing is gone, every directory has its mode,
every link has its target, and no link is new. -/
structure OnlyAdds (mayWrite mayMake : Location → Prop) (t t' : FileTree) : Prop where
  wellFormed : t'.WellFormed
  grows : t.GrowsInto t'
  /-- The bytes and the mode of a file change only where files may be written. -/
  written : ∀ {loc : Location} {m : Mode} {content : Bytes},
    t.lookup loc = some (.file m content) →
    t'.lookup loc = some (.file m content) ∨ mayWrite loc
  /-- What is new is a file where files may be written or a directory where directories may be
  made. -/
  made : ∀ {loc : Location} {n : Node}, t.lookup loc = none → t'.lookup loc = some n →
    n.isFile = true ∧ mayWrite loc ∨ n.isDirectory = true ∧ mayMake loc

namespace OnlyAdds

variable {mayWrite mayMake : Location → Prop}

/-- Doing nothing adds nothing. -/
theorem refl (hwf : t.WellFormed) : OnlyAdds mayWrite mayMake t t where
  wellFormed := hwf
  grows := .refl t
  written hfile := Or.inl hfile
  made hnone hn := by rw [hnone] at hn; cases hn

/-- More may be allowed. -/
theorem mono (h : OnlyAdds mayWrite mayMake t t₁) {mayWrite' mayMake' : Location → Prop}
    (hwrite : ∀ loc, mayWrite loc → mayWrite' loc) (hmake : ∀ loc, mayMake loc → mayMake' loc) :
    OnlyAdds mayWrite' mayMake' t t₁ where
  wellFormed := h.wellFormed
  grows := h.grows
  written hfile := (h.written hfile).imp_right (hwrite _)
  made hnone hn :=
    (h.made hnone hn).imp (And.imp_right (hwrite _)) (And.imp_right (hmake _))

/-- Two additions after one another are one. -/
theorem trans (h : OnlyAdds mayWrite mayMake t t₁) (h' : OnlyAdds mayWrite mayMake t₁ t₂) :
    OnlyAdds mayWrite mayMake t t₂ where
  wellFormed := h'.wellFormed
  grows := h.grows.trans h'.grows
  written hfile := by
    rcases h.written hfile with hsame | hplace
    · exact h'.written hsame
    · exact Or.inr hplace
  made {loc n} hnone hn := by
    cases hmid : t₁.lookup loc with
    | none => exact h'.made hmid hn
    | some n₁ =>
      -- What the first addition has put there is of the same kind after the second.
      rcases h.made hnone hmid with ⟨hkind, hplace⟩ | ⟨hkind, hplace⟩
      · refine Or.inl ⟨?_, hplace⟩
        cases n₁ with
        | directory | link => simp [Node.isFile] at hkind
        | file m content =>
          obtain ⟨m', content', hfile⟩ := h'.grows.file hmid
          cases hn.symm.trans hfile
          rfl
      · refine Or.inr ⟨?_, hplace⟩
        cases n₁ with
        | file | link => simp [Node.isDirectory] at hkind
        | directory m =>
          cases hn.symm.trans (h'.grows.directory hmid)
          rfl

/-- A file was there before, or it stands where files may be written. -/
theorem file_before (h : OnlyAdds mayWrite mayMake t t₁) {m : Mode} {content : Bytes}
    (hfile : t₁.lookup loc = some (.file m content)) :
    (∃ m₀ content₀, t.lookup loc = some (.file m₀ content₀)) ∨ mayWrite loc := by
  cases hold : t.lookup loc with
  | none =>
    rcases h.made hold hfile with ⟨-, hplace⟩ | ⟨hdir, -⟩
    · exact Or.inr hplace
    · simp [Node.isDirectory] at hdir
  | some n =>
    cases n with
    | file m₀ content₀ => exact Or.inl ⟨m₀, content₀, rfl⟩
    | directory m₀ => cases hfile.symm.trans (h.grows.directory hold)
    | link target => cases hfile.symm.trans (h.grows.link.mpr hold)

/-- A node that is put where it may be put. -/
theorem of_put (hwf : t₁.WellFormed) (hg : t.GrowsInto t₁) {n : Node}
    (hn : t₁.lookup loc = some n) (hkept : ∀ other, other ≠ loc →
      t₁.lookup other = t.lookup other)
    (hfile : n.isFile = true → mayWrite loc) (hdir : n.isDirectory = true → mayMake loc) :
    OnlyAdds mayWrite mayMake t t₁ where
  wellFormed := hwf
  grows := hg
  written {other m content} hold := by
    by_cases hother : other = loc
    · subst hother
      obtain ⟨m', content', hnew⟩ := hg.file hold
      cases hn.symm.trans hnew
      exact Or.inr (hfile rfl)
    · exact Or.inl ((hkept other hother).trans hold)
  made {other n'} hnone hn' := by
    by_cases hother : other = loc
    · subst hother
      cases hn.symm.trans hn'
      cases n with
      | directory m => exact Or.inr ⟨rfl, hdir rfl⟩
      | file m content => exact Or.inl ⟨rfl, hfile rfl⟩
      | link target =>
        -- A tree that grows gets no link.
        have hlink := hg.link.mp hn
        rw [hnone] at hlink
        cases hlink
    · rw [hkept other hother, hnone] at hn'
      cases hn'

end OnlyAdds

/-! ### Making directories -/

/-- Only directories were added, and each of them is where one of these paths leads by now. -/
def AddsDirectoriesAt (isAsked : Path → Prop) (t t' : FileTree) : Prop :=
  OnlyAdds (fun _ => False) (t'.LeadsBy isAsked) t t'

/-- What paths led to they lead to later. -/
theorem AddsDirectoriesAt.later {isAsked : Path → Prop} (h : AddsDirectoriesAt isAsked t t₁)
    (hg : t₁.GrowsInto t₂) {mayWrite : Location → Prop} :
    OnlyAdds mayWrite (t₂.LeadsBy isAsked) t t₁ :=
  h.mono (fun _ hfalse => hfalse.elim) fun _ hled => hled.grow h.wellFormed hg

/-- A directory that is made where one of these paths leads is one more. -/
theorem AddsDirectoriesAt.makeDirectory {isAsked : Path → Prop}
    (h : AddsDirectoriesAt isAsked t t₁) (hp : isAsked (withoutTrailingSlash p)) (asked : Mode) :
    AddsDirectoriesAt isAsked t (t₁.makeDirectory p asked).2 := by
  rcases t₁.makeDirectory_cases p asked with ⟨f, heq⟩ | ⟨dir, name, m, hwalk, hfits, heq⟩
  · rw [heq]; exact h
  · rw [heq]
    show OnlyAdds _ _ t (t₁.set (dir ++ [name]) (.directory m))
    -- The other directories are still where their paths lead, and the new one is where its own
    -- leads.
    have hnew := leads_of_made hwalk hfits.growsInto hfits.lookup_set_self
    exact (h.later hfits.growsInto).trans (.of_put (hfits.wellFormed h.wellFormed) hfits.growsInto
      hfits.lookup_set_self (fun _ => hfits.lookup_set_ne) (by simp [Node.isFile])
      fun _ => ⟨_, hp, hnew⟩)

/-- Making a directory with all that is missing above it adds directories where the paths lead
that were asked for. -/
theorem addsDirectoriesAt_createAll (hwf : t.WellFormed) {isAsked : Path → Prop}
    (hup : ∀ {p up : Path}, isAsked p → p.parent? = some up → isAsked up)
    (htrim : ∀ {p : Path}, isAsked p → isAsked (withoutTrailingSlash p)) (hp : isAsked p) :
    AddsDirectoriesAt isAsked t (t.createAll p).2 :=
  createAncestors_induction hup (fun h hp => h.makeDirectory (htrim hp) _) _
    (OnlyAdds.refl hwf : AddsDirectoriesAt isAsked t t) hp

/-- A path is asked for with or without a slash at its end. -/
theorem IsAskedFor.withoutTrailingSlash (hnames : ∀ n ∈ names, IsName n)
    (h : IsAskedFor destination names p) :
    IsAskedFor destination names (withoutTrailingSlash p) := by
  rcases h with hlead | ⟨first, more, rfl, hne, rfl⟩
  · rw [← components_withoutTrailingSlash] at hlead
    exact Or.inl hlead
  · have hfirst : ∀ n ∈ first, IsName n := fun n hn => hnames n (List.mem_append_left _ hn)
    rw [withoutTrailingSlash_eq_self (Path.getLast?_join_ne_slash hfirst hne _)]
    exact Or.inr ⟨first, more, rfl, hne, rfl⟩

/-- Above a joined path stands what is asked for its names without the last. -/
theorem isAskedFor_parent (hnames : ∀ n ∈ names, IsName n) {up : Path}
    (hup : (destination.join (.ofNames names)).parent? = some up) :
    IsAskedFor destination names.dropLast up := by
  rcases List.eq_nil_or_concat names with rfl | ⟨front, last, rfl⟩
  · exact (isAskedFor_join destination []).parent? hnames hup
  · rw [List.concat_eq_append] at hnames hup ⊢
    rw [List.dropLast_concat]
    have hfront : ∀ n ∈ front, IsName n := fun n hn => hnames n (List.mem_append_left _ hn)
    by_cases hne : front = []
    · subst hne
      refine Or.inl ?_
      rw [Path.components_parent? hup, Path.components_join hnames (by simp)]
      simp
    · rw [Path.parent?_join hne hfront (hnames last (by simp))] at hup
      cases hup
      exact isAskedFor_join destination front

end ImageBuild.FileTree
