import ImageBuild.Proofs.Tree.Anchored

/-!
# `ImageBuild.Proofs.Tree.Settled`: names that mean the same later

A name is joined onto a destination in the tree as it is at that time. If the destination is
`FileTree.Settled`, the answer is the same in every tree that this one grows into
(`Settled.joinWithin_eq`). What decides it are the links along the names. A link that is seen
stays (`GrowsInto.linkTarget?`), and none comes into sight that was not seen before
(`Settled.linkTarget?_eq`): where the destination was there already, directories that are made on
the way have no links in them, and where it was not, there are none at all.
-/

set_option autoImplicit false

namespace ImageBuild.FileTree

variable {t t' : FileTree} {destination : Path} {D : Location} {names : List Name} {n : Name}

/-- A link that is seen is seen after the tree has grown. -/
theorem GrowsInto.linkTarget? (hg : t.GrowsInto t') (hwf : t.WellFormed) {p target : Path}
    (h : t.linkTarget? p = some target) : t'.linkTarget? p = some target := by
  obtain ⟨loc, hw⟩ := exists_walk_of_linkTarget? h
  have hlink := hwf.lookup_of_walk hw
  obtain ⟨n', hn', hw'⟩ := hg.walk hw hlink
  rw [hg.link.mpr hlink] at hn'
  cases hn'
  exact linkTarget?_of_walk hw'

/-- A walk to a link, along names without links, could be made before the tree has grown. -/
theorem Walks.link_before {k : Nat} {here loc : Location} {target : Path} (hwf : t.WellFormed)
    (hg : t.GrowsInto t') (hnames : ∀ m ∈ names, IsName m) (hn : IsName n)
    (hhere : ∃ m, t.lookup here = some (.directory m)) (hclear : t.Clear here names)
    (h : t'.Walks false k here (names ++ [n]) (.node loc (.link target))) :
    t.Walks false k here (names ++ [n]) (.node loc (.link target)) := by
  obtain ⟨k₁, E, harr, hlast⟩ := h.arrives (by simp)
  -- The walk gets along the names as it did before, or below something that was no directory.
  rcases harr.before_growth hwf hg hnames hclear hhere with ⟨hbefore, m, hm⟩ | hfree
  · cases hlast with
    | stay hs => exact absurd hn.isStep hs.not_isStep
    | up => exact absurd rfl hn.ne_dotDot
    | down _ _ hl hrest => cases hrest.unique (.here_of_lookup hl)
    | link _ _ _ hmore => simp at hmore
    | endLink hs hseg hl _ =>
      have hs' : t.canSearch E = true := by
        simpa [FileTree.canSearch, hm, hg.directory hm] using hs
      exact hbefore.walks (by simp) (.endLink hs' hseg (hg.link.mp hl) rfl)
  · exact absurd rfl ((hlast.of_clear (by simpa using hn) ((hfree.grow hg).clear _)).2.2
      (by simp) loc target)

/-- Behind checked names no link comes into sight. -/
theorem Settled.linkTarget?_before (h : t.Settled destination) (hwf : t.WellFormed)
    (hg : t.GrowsInto t') (hchecked : t.Checked destination names) (hn : IsName n) {target : Path}
    (hlink : t'.linkTarget? (destination.join (.ofNames (names ++ [n]))) = some target) :
    t.linkTarget? (destination.join (.ofNames (names ++ [n]))) = some target := by
  have hall : ∀ m ∈ names ++ [n], IsName m := by
    intro m hm
    rcases List.mem_append.mp hm with hm | hm
    · exact hchecked.isName m hm
    · rw [List.mem_singleton.mp hm]; exact hn
  -- The link is seen by a walk to the destination and then along the names.
  obtain ⟨loc, hw⟩ := exists_walk_of_linkTarget? hlink
  obtain ⟨htext, hwalks⟩ := (walk_join_eq_ok_iff hall (by simp)).mp hw
  obtain ⟨k, D, harr, hbelow⟩ := hwalks.arrives (by simp)
  have hD : t'.directoryAt? destination = some D :=
    directoryAt?_eq_some_iff.mpr ⟨⟨k, harr⟩, hbelow.directory_of_names hall (by simp)⟩
  rcases h t' D hg hD with hbefore | hfree
  · obtain ⟨⟨k', harr'⟩, hdir⟩ := directoryAt?_eq_some_iff.mp hbefore
    obtain ⟨rfl, -⟩ := (hg.workdir ▸ harr'.grow hg).unique harr
    have hclear : t.Clear D names := by
      by_cases hne : names = []
      · subst hne; trivial
      · have hlead :=
          checkText_of_longer htext (Path.isEmpty_join hchecked.isName hne destination)
          (Path.bytes_join_prefix hchecked.isName (by simpa using hn) destination)
        exact hchecked.clear hlead harr'
    have hbelow' := hbelow.link_before hwf hg hchecked.isName hn hdir hclear
    exact linkTarget?_of_walk ((walk_join_eq_ok_iff hall (by simp)).mpr
      ⟨htext, harr'.walks (by simp) hbelow'⟩)
  · -- Nothing was there, and directories that were made since hold no links.
    exact absurd rfl ((hbelow.of_clear hall (hfree.clear _)).2.2 (by simp) loc target)

/-- Behind checked names the same links are seen as before. -/
theorem Settled.linkTarget?_eq (h : t.Settled destination) (hwf : t.WellFormed)
    (hg : t.GrowsInto t') (hchecked : t.Checked destination names) (hn : IsName n) :
    t'.linkTarget? (candidate destination names n) =
      t.linkTarget? (candidate destination names n) := by
  rw [Checked.candidate_eq hchecked.isName hn]
  cases hlink : t.linkTarget? (destination.join (.ofNames (names ++ [n]))) with
  | some target => exact hg.linkTarget? hwf hlink
  | none =>
    cases hlink' : t'.linkTarget? (destination.join (.ofNames (names ++ [n]))) with
    | none => rfl
    | some target =>
      rw [h.linkTarget?_before hwf hg hchecked hn hlink'] at hlink
      cases hlink

/-- The resolution takes the same steps as before. -/
theorem Settled.resolve_eq (h : t.Settled destination) (hwf : t.WellFormed) (hg : t.GrowsInto t')
    {entry : Path} {hops : Nat} {resolved : List Name} {pending : List PendingPart}
    (hres : t.Checked destination resolved) (hpend : PendingNames pending) :
    t'.resolve destination entry hops resolved pending =
      t.resolve destination entry hops resolved pending := by
  -- The resolution goes on after a `..`, after a name that is no link, and after a link.
  induction hops, resolved, pending using resolve.induct t destination with
  | case1 hops resolved => rw [resolve, resolve]
  | case2 hops resolved rest hempty link target =>
    rw [resolve.eq_def t', resolve.eq_def t]; simp [hempty]
  | case3 hops resolved rest hempty => rw [resolve.eq_def t', resolve.eq_def t]; simp [hempty]
  | case4 hops resolved origin rest hempty ih =>
    rw [resolve.eq_def t', resolve.eq_def t]
    simp only [hempty]
    exact ih hres.dropLast fun n hn => hpend n (List.mem_cons_of_mem _ hn)
  | case5 hops resolved name rest hlink ih =>
    obtain ⟨hname, hnul⟩ := hpend name List.mem_cons_self
    have hlink' := (h.linkTarget?_eq hwf hg hres hname).trans hlink
    rw [resolve.eq_def t', resolve.eq_def t]
    simp only [hlink, hlink']
    exact ih (hres.concat hname hnul hlink) fun n hn => hpend n (List.mem_cons_of_mem _ hn)
  | case6 resolved name rest target hlink =>
    have hlink' := (h.linkTarget?_eq hwf hg hres (hpend name List.mem_cons_self).1).trans hlink
    rw [resolve.eq_def t', resolve.eq_def t]
    simp only [hlink, hlink']
  | case7 resolved name rest target hlink hops habs =>
    have hlink' := (h.linkTarget?_eq hwf hg hres (hpend name List.mem_cons_self).1).trans hlink
    rw [resolve.eq_def t', resolve.eq_def t]
    simp only [hlink, hlink', habs, if_true]
  | case8 resolved name rest target hlink hops habs origin ih =>
    have hlink' := (h.linkTarget?_eq hwf hg hres (hpend name List.mem_cons_self).1).trans hlink
    obtain ⟨loc, hw⟩ := exists_walk_of_linkTarget? hlink
    have htarget := pendingNames_ofPath (hwf.target (hwf.lookup_of_walk hw)) origin
    rw [resolve.eq_def t', resolve.eq_def t]
    simp only [hlink, hlink', habs]
    refine ih hres fun n hn => ?_
    rcases List.mem_append.mp hn with hn | hn
    · exact htarget n hn
    · exact hpend n (List.mem_cons_of_mem _ hn)

/-- What a path resolves to at a settled destination does not change as the tree grows. -/
theorem Settled.resolveWithin_eq (h : t.Settled destination) (hwf : t.WellFormed)
    (hg : t.GrowsInto t') (entry : Path) :
    t'.resolveWithin destination entry = t.resolveWithin destination entry := by
  unfold resolveWithin
  split
  · rfl
  · next hnul =>
    split
    · rfl
    · rw [h.resolve_eq hwf hg (.nil t destination)
        (pendingNames_ofPath (by simpa using hnul) none)]

/-- Nor does the joined path. -/
theorem Settled.joinWithin_eq (h : t.Settled destination) (hwf : t.WellFormed)
    (hg : t.GrowsInto t') (entry : Path) :
    t'.joinWithin destination entry = t.joinWithin destination entry := by
  unfold joinWithin
  rw [h.resolveWithin_eq hwf hg entry]

end ImageBuild.FileTree
