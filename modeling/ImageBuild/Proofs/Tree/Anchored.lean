import ImageBuild.Proofs.Tree.Confined

/-!
# `ImageBuild.Proofs.Tree.Anchored`: destinations with nothing waiting in them

A path that is joined onto a destination is checked against the links that can be seen through the
destination at that time. A destination that leads nowhere yet can come to lead somewhere later:
`x/../y` leads nowhere without `x`, and to `y` once `x` is made. What was checked before that was
checked against nothing, and the links in `y` were not seen.

`FileTree.Anchored` excludes exactly this. However the tree grows, the destination leads to no
directory that it did not lead to before, unless no path below it leads out of that directory. A
destination that leads to a directory is anchored (`Anchored.of_directoryAt?`), and so is one with
no `..` and no link on its way, there or not (`Anchored.of_clear`). What was checked then stays
true (`Anchored.walk_below`), and nothing less would do: the check is good for later only if the
destination is anchored (`anchored_iff`).

Both kinds of destinations are more than anchored, they are `FileTree.Settled`: a directory that
the destination comes to lead to holds no link at all. `ImageBuild.Proofs.Tree.Settled` is about
those.
-/

set_option autoImplicit false

namespace ImageBuild.FileTree

variable {t t' : FileTree} {destination : Path} {D : Location}

/-- No path of names below the destination leads out of a directory. -/
def KeepsIn (t : FileTree) (destination : Path) (D : Location) : Prop :=
  ∀ (names : List Name) (follow : Bool) (spot : Spot), (∀ n ∈ names, IsName n) → names ≠ [] →
    t.walk follow (destination.join (.ofNames names)) = .ok spot → D <+: spot.loc

/-- Should the destination come to lead to a directory that it does not lead to yet, no path below
it leads out of that directory. -/
def Anchored (t : FileTree) (destination : Path) : Prop :=
  ∀ (t' : FileTree) (D : Location), t.GrowsInto t' → t'.directoryAt? destination = some D →
    t.directoryAt? destination = some D ∨ t'.KeepsIn destination D

/-- Should the destination come to lead to a directory that it does not lead to yet, there is no
link in that directory. -/
def Settled (t : FileTree) (destination : Path) : Prop :=
  ∀ (t' : FileTree) (D : Location), t.GrowsInto t' → t'.directoryAt? destination = some D →
    t.directoryAt? destination = some D ∨ t'.LinkFree D

/-- A walk of names below a path goes through the directory that the path denotes. -/
theorem exists_directoryAt?_of_walk_join {names : List Name} (hnames : ∀ n ∈ names, IsName n)
    (hne : names ≠ []) {follow : Bool} {spot : Spot}
    (h : t.walk follow (destination.join (.ofNames names)) = .ok spot) :
    ∃ k D, t.directoryAt? destination = some D ∧ t.Walks follow k D names spot := by
  obtain ⟨-, hwalks⟩ := (walk_join_eq_ok_iff hnames hne).mp h
  obtain ⟨n, rest, rfl⟩ := List.exists_cons_of_ne_nil hne
  obtain ⟨k, D, harr, hrest⟩ := hwalks.arrives (by simp)
  have hdir := hrest.directory_of_names hnames (by simp)
  exact ⟨k, D, directoryAt?_eq_some_iff.mpr ⟨⟨k, harr⟩, hdir⟩, hrest⟩

/-- Without a link in it, nothing leads out of a directory. -/
theorem LinkFree.keepsIn (h : t.LinkFree D) (hD : t.directoryAt? destination = some D) :
    t.KeepsIn destination D := by
  intro names follow spot hnames hne hw
  obtain ⟨k, D', hD', hwalks⟩ := exists_directoryAt?_of_walk_join hnames hne hw
  rw [hD] at hD'
  cases hD'
  rw [(hwalks.of_clear hnames (h.clear names)).1]
  exact List.prefix_append _ _

/-- What a path denotes it denotes after the tree has grown. -/
theorem GrowsInto.directoryAt? (hg : t.GrowsInto t') {p : Path}
    (h : t.directoryAt? p = some D) : t'.directoryAt? p = some D :=
  directoryAt?_eq_some_iff.mpr ((directoryAt?_eq_some_iff.mp h).grow hg)

/-- An anchored destination is so in a grown tree. -/
theorem Anchored.grow (h : t.Anchored destination) (hg : t.GrowsInto t') :
    t'.Anchored destination := by
  intro t'' D hg' hD
  exact (h t'' D (hg.trans hg') hD).imp_left hg.directoryAt?

/-- A settled destination is so in a grown tree. -/
theorem Settled.grow (h : t.Settled destination) (hg : t.GrowsInto t') :
    t'.Settled destination := by
  intro t'' D hg' hD
  exact (h t'' D (hg.trans hg') hD).imp_left hg.directoryAt?

/-- What is settled is anchored. -/
theorem Settled.anchored (h : t.Settled destination) : t.Anchored destination := by
  intro t' D hg hD
  exact (h t' D hg hD).imp_right fun hfree => hfree.keepsIn hD

/-- A destination that is there is settled. -/
theorem Settled.of_directoryAt? (h : t.directoryAt? destination = some D) :
    t.Settled destination := by
  intro t' D' hg hD'
  rw [hg.directoryAt? h] at hD'
  cases hD'
  exact Or.inl h

/-- A destination that is there is anchored. -/
theorem Anchored.of_directoryAt? (h : t.directoryAt? destination = some D) :
    t.Anchored destination :=
  (Settled.of_directoryAt? h).anchored

/-- Along names and over no link, a walk in the grown tree is one that was there before, or it
ends where nothing was, and so no link. -/
theorem Arrives.before_growth {names : List Name} {here : Location} {k k' : Nat}
    (hwf : t.WellFormed) (hg : t.GrowsInto t') (hnames : ∀ n ∈ names, IsName n)
    (hclear : t.Clear here names) (hhere : ∃ m, t.lookup here = some (.directory m))
    (h : t'.Arrives k here names k' D) :
    (t.Arrives k here names k' D ∧ ∃ m, t.lookup D = some (.directory m)) ∨ t.LinkFree D := by
  induction names generalizing here with
  | nil => cases h; exact Or.inl ⟨.here, hhere⟩
  | cons n rest ih =>
    have hn := hnames n List.mem_cons_self
    have hrest : ∀ m ∈ rest, IsName m := fun m hm => hnames m (List.mem_cons_of_mem _ hm)
    -- The directory is the old one with its old mode, so the walk could get on from here before.
    have hsearch : t'.canSearch here = true → t.canSearch here = true := by
      obtain ⟨m, hm⟩ := hhere
      intro hs
      simpa [FileTree.canSearch, hm, hg.directory hm] using hs
    cases h with
    | stay hs => exact absurd hn.isStep hs.not_isStep
    | up => exact absurd rfl hn.ne_dotDot
    | down hs hseg hl harr =>
      obtain ⟨hnolink, hclear'⟩ := hclear (hsearch hs) hseg.length_le
      by_cases hdir : ∃ m, t.lookup (here ++ [n]) = some (.directory m)
      · obtain ⟨m, hm⟩ := hdir
        rcases ih hrest hclear' ⟨m, hm⟩ harr with hbefore | hfree
        · exact Or.inl ⟨.down (hsearch hs) hseg hm hbefore.1, hbefore.2⟩
        · exact Or.inr hfree
      · -- Nothing is below what was no directory, and the walk goes only down.
        have hfree := hwf.linkFree_below (fun m hm => hdir ⟨m, hm⟩) hnolink
        have hclear'' := (hfree.grow hg).clear rest
        obtain ⟨hloc, -⟩ := harr.walks_end.of_clear hrest hclear''
        obtain rfl : D = here ++ [n] ++ rest := hloc
        refine Or.inr fun below target hlink => hfree (rest ++ below) target ?_
        rwa [← List.append_assoc]
    | link hs hseg hl harr =>
      exact absurd (hg.link.mp hl) ((hclear (hsearch hs) hseg.length_le).1 _)

/-- A destination that is spelled with names only, and that no link is on the way to, is settled,
whether it is there or not. -/
theorem Settled.of_clear (hwf : t.WellFormed) (hnames : ∀ n ∈ destination.steps, IsName n)
    (hstart : ∃ m, t.lookup (startOf destination t.workdir) = some (.directory m))
    (hclear : t.Clear (startOf destination t.workdir) destination.steps) :
    t.Settled destination := by
  intro t' D hg hD
  obtain ⟨⟨k, harr⟩, -⟩ := directoryAt?_eq_some_iff.mp hD
  rw [hg.workdir] at harr
  rcases harr.before_growth hwf hg hnames hclear hstart with ⟨hbefore, hdir⟩ | hfree
  · exact Or.inl (directoryAt?_eq_some_iff.mpr ⟨⟨k, hbefore⟩, hdir⟩)
  · exact Or.inr (hfree.grow hg)

/-- Such a destination is anchored. -/
theorem Anchored.of_clear (hwf : t.WellFormed) (hnames : ∀ n ∈ destination.steps, IsName n)
    (hstart : ∃ m, t.lookup (startOf destination t.workdir) = some (.directory m))
    (hclear : t.Clear (startOf destination t.workdir) destination.steps) :
    t.Anchored destination :=
  (Settled.of_clear hwf hnames hstart hclear).anchored

/-- Without a link in the directory that a destination leads to, if it leads to one at all, no
link is seen through it. -/
theorem linkTarget?_of_linkFree {names : List Name}
    (hfree : ∀ D, t.directoryAt? destination = some D → t.LinkFree D)
    (hnames : ∀ n ∈ names, IsName n) (hne : names ≠ []) :
    t.linkTarget? (destination.join (.ofNames names)) = none := by
  cases htarget : t.linkTarget? (destination.join (.ofNames names)) with
  | none => rfl
  | some target =>
    obtain ⟨loc, hw⟩ := exists_walk_of_linkTarget? htarget
    obtain ⟨k, D, hD, hwalks⟩ := exists_directoryAt?_of_walk_join hnames hne hw
    exact absurd rfl ((hwalks.of_clear hnames ((hfree D hD).clear names)).2.2 hne loc target)

/-- Through a destination that leads nowhere no link is seen, so any names pass the check. -/
theorem Checked.of_missing {names : List Name} (h : t.directoryAt? destination = none)
    (hnames : ∀ n ∈ names, IsName n) (hnul : ∀ n ∈ names, 0 ∉ n) :
    t.Checked destination names where
  isName := hnames
  nul_notMem := hnul
  notLink first more heq hne := by
    refine linkTarget?_of_linkFree ?_ (fun n hn => hnames n (by simp [heq, hn])) hne
    intro D hD
    rw [h] at hD
    cases hD

/-- In a directory without any link every name passes the check. -/
theorem Checked.of_linkFree {names : List Name} (h : t.LinkFree D)
    (hD : t.directoryAt? destination = some D) (hnames : ∀ n ∈ names, IsName n)
    (hnul : ∀ n ∈ names, 0 ∉ n) : t.Checked destination names where
  isName := hnames
  nul_notMem := hnul
  notLink first more heq hne := by
    refine linkTarget?_of_linkFree ?_ (fun n hn => hnames n (by simp [heq, hn])) hne
    intro D' hD'
    rw [hD] at hD'
    cases hD'
    exact h

/-- A path that was joined onto an anchored destination leads below it, in the tree in which it
was joined and in every tree that this one has grown into. -/
theorem Anchored.walk_below (h : t.Anchored destination) (hwf : t.WellFormed)
    (hg : t.GrowsInto t') {names : List Name} (hchecked : t.Checked destination names)
    (hne : names ≠ []) {follow : Bool} {spot : Spot}
    (hw : t'.walk follow (destination.join (.ofNames names)) = .ok spot) :
    ∃ D, t'.directoryAt? destination = some D ∧ D <+: spot.loc := by
  obtain ⟨k, D, hD, hwalks⟩ := exists_directoryAt?_of_walk_join hchecked.isName hne hw
  refine ⟨D, hD, ?_⟩
  rcases h t' D hg hD with hbefore | hkeeps
  · -- The names were looked at through the same directory.
    obtain ⟨⟨k', harr⟩, hdir⟩ := directoryAt?_eq_some_iff.mp hbefore
    have htext := ((walk_join_eq_ok_iff hchecked.isName hne).mp hw).1
    have hclear := (hchecked.clear htext harr).grow hwf hg hdir
    rw [(hwalks.of_clear hchecked.isName hclear).1]
    exact List.prefix_append _ _
  · exact hkeeps names follow spot hchecked.isName hne hw

/-- A destination is anchored exactly if the check of a path is good for later: however the tree
grows, names that are accepted below the destination now do not come to lead out of it. -/
theorem anchored_iff (hwf : t.WellFormed) :
    t.Anchored destination ↔
      ∀ (names : List Name) (t' : FileTree) (D : Location) (follow : Bool) (spot : Spot),
        t.resolveWithin destination (.ofNames names) = .ok names → names ≠ [] →
        t.GrowsInto t' → t'.directoryAt? destination = some D →
        t'.walk follow (destination.join (.ofNames names)) = .ok spot → D <+: spot.loc := by
  constructor
  · intro h names t' D follow spot haccepted hne hg hD hw
    obtain ⟨D', hD', hbelow⟩ := h.walk_below hwf hg (.of_resolveWithin hwf haccepted) hne hw
    rw [hD] at hD'
    cases hD'
    exact hbelow
  · intro h t' D hg hD
    cases hbefore : t.directoryAt? destination with
    | some D' => exact Or.inl ((hg.directoryAt? hbefore).symm.trans hD)
    | none =>
      refine Or.inr fun names follow spot hnames hne hw => ?_
      -- Nothing is seen through a destination that leads nowhere, so the names are accepted.
      have htext := ((walk_join_eq_ok_iff hnames hne).mp hw).1
      have hnul := Path.nul_notMem_of_join hnames (checkText_eq_ok_iff.mp htext).1
      have haccepted := (Checked.of_missing hbefore hnames hnul).resolveWithin_eq
      exact h names t' D follow spot haccepted hne hg hD hw

end ImageBuild.FileTree
