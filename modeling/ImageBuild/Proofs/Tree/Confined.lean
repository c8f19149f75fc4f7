import ImageBuild.Proofs.Tree.Walk
import ImageBuild.Tree.Confined
import Mathlib

/-!
# `ImageBuild.Proofs.Tree.Confined`: what a joined path means

`FileTree.joinWithin` answers a path below a root. The invariant of its resolution is `Checked`:
the names reached so far are plain names, and none of them, seen from the root, is a link. A `..`
takes the last name away and a name is appended only after it was looked at, so every step keeps
it (`Checked.of_resolve`).

`joinWithin_sound` is what follows for the answer. Its text is the root with plain names behind
it, no leading part of which is a link; opening it leads to the place below the root that the
names spell, over no link there; and joining the names again gives the same answer.
`Checked.clear` is the part that other proofs use: in the tree in which the names were checked,
and in every tree that this one grows into, the way along them is clear.
-/

set_option autoImplicit false

namespace ImageBuild.FileTree

variable {t : FileTree} {root entry : Path} {names : List Name}

/-- The invariant of the resolution below a root: plain names, of which no leading part is a link.
-/
structure Checked (t : FileTree) (root : Path) (names : List Name) : Prop where
  isName : ∀ n ∈ names, IsName n
  nul_notMem : ∀ n ∈ names, 0 ∉ n
  notLink : ∀ first more : List Name, names = first ++ more → first ≠ [] →
    t.linkTarget? (root.join (.ofNames first)) = none

namespace Checked

/-- No names are checked already. -/
theorem nil (t : FileTree) (root : Path) : t.Checked root [] where
  isName := by simp
  nul_notMem := by simp
  notLink first more h hne := absurd (List.append_eq_nil_iff.mp h.symm).1 hne

/-- A leading part of checked names is checked. -/
theorem of_append {more : List Name} (h : t.Checked root (names ++ more)) :
    t.Checked root names where
  isName n hn := h.isName n (List.mem_append_left _ hn)
  nul_notMem n hn := h.nul_notMem n (List.mem_append_left _ hn)
  notLink first rest heq hne := h.notLink first (rest ++ more) (by simp [heq]) hne

/-- What leads to checked names is checked. -/
theorem dropLast (h : t.Checked root names) : t.Checked root names.dropLast := by
  by_cases hne : names = []
  · subst hne; exact nil t root
  · rw [← List.dropLast_concat_getLast hne] at h
    exact h.of_append

/-- The path that is looked at before a name is appended is the root with all the names. -/
theorem candidate_eq (h : ∀ n ∈ names, IsName n) {n : Name} (hn : IsName n) :
    candidate root names n = root.join (.ofNames (names ++ [n])) := by
  have hsingle : Path.ofNames [n] = ⟨n⟩ := by simp [Path.ofNames, List.intercalate_singleton]
  rw [← Path.join_join h (by simpa using hn) (by simp), hsingle]
  rfl

/-- A name that is found to be no link can be appended. -/
theorem concat (h : t.Checked root names) {n : Name} (hn : IsName n) (hnul : 0 ∉ n)
    (hlink : t.linkTarget? (candidate root names n) = none) : t.Checked root (names ++ [n]) where
  isName := List.forall_mem_append.mpr ⟨h.isName, List.forall_mem_singleton.mpr hn⟩
  nul_notMem := List.forall_mem_append.mpr ⟨h.nul_notMem, List.forall_mem_singleton.mpr hnul⟩
  notLink first more heq hne := by
    rcases List.eq_nil_or_concat more with rfl | ⟨front, last, rfl⟩
    · rw [List.append_nil] at heq
      rw [← heq, ← candidate_eq h.isName hn]
      exact hlink
    · rw [List.concat_eq_append, ← List.append_assoc] at heq
      exact h.notLink first front (List.append_inj' heq rfl).1 hne

end Checked

/-! ### The resolution keeps the invariant -/

/-- The names among some pending parts are plain names. -/
def PendingNames (pending : List PendingPart) : Prop :=
  ∀ n, .down n ∈ pending → IsName n ∧ 0 ∉ n

/-- The names that a path asks for are components of it. -/
theorem normal_mem_components_of_down_mem {origin : Option (Path × Path)} {p : Path} {n : Name}
    (h : .down n ∈ PendingPart.ofPath origin p) : .normal n ∈ p.components := by
  obtain ⟨c, hc, hmem⟩ := List.mem_flatMap.mp h
  cases c with
  | root | here | parent => simp [PendingPart.ofComponent] at hmem
  | normal name =>
    obtain rfl : n = name := by simpa [PendingPart.ofComponent] using hmem
    exact hc

/-- The parts of a path without a nul are names without one. -/
theorem pendingNames_ofPath {p : Path} (hp : p.hasNul = false) (origin : Option (Path × Path)) :
    PendingNames (PendingPart.ofPath origin p) := by
  intro n hn
  have hc := normal_mem_components_of_down_mem hn
  exact ⟨Path.isName_of_mem_components hc, Path.nul_notMem_of_mem_components hp hc⟩

/-- A link is found by a walk that ends at it. -/
theorem exists_walk_of_linkTarget? {p target : Path} (h : t.linkTarget? p = some target) :
    ∃ loc, t.walk false p = .ok (.node loc (.link target)) := by
  unfold linkTarget? find at h
  cases hw : t.walk false p with
  | error e => simp [hw, bind, Except.bind] at h
  | ok spot =>
    cases spot with
    | vacant => simp [hw, bind, Except.bind, throw, throwThe, MonadExceptOf.throw] at h
    | node loc n =>
      cases n with
      | directory | file => simp [hw, bind, Except.bind, pure, Except.pure] at h
      | link target' =>
        obtain rfl : target' = target := by
          simpa [hw, bind, Except.bind, pure, Except.pure] using h
        exact ⟨loc, rfl⟩

/-- A walk to a link finds its target. -/
theorem linkTarget?_of_walk {p target : Path} {loc : Location}
    (h : t.walk false p = .ok (.node loc (.link target))) : t.linkTarget? p = some target := by
  simp [linkTarget?, find, h, bind, Except.bind, pure, Except.pure]

/-- The resolution keeps the invariant. Only names that are not links are appended, and the names
that a followed link brings in are pending until they are looked at themselves. -/
theorem Checked.of_resolve (hwf : t.WellFormed) {hops : Nat} {resolved : List Name}
    {pending : List PendingPart} (hres : t.Checked root resolved) (hpend : PendingNames pending)
    (h : t.resolve root entry hops resolved pending = .ok names) : t.Checked root names := by
  -- The resolution goes on after a `..`, after a name that is no link, and after a link.
  induction hops, resolved, pending using resolve.induct t root with
  | case1 hops resolved =>
    rw [resolve] at h
    cases h
    exact hres
  | case2 hops resolved rest hempty link target => rw [resolve] at h; simp [hempty] at h
  | case3 hops resolved rest hempty => rw [resolve] at h; simp [hempty] at h
  | case4 hops resolved origin rest hempty ih =>
    rw [resolve.eq_def] at h
    simp only [hempty] at h
    exact ih hres.dropLast (fun n hn => hpend n (List.mem_cons_of_mem _ hn)) h
  | case5 hops resolved name rest hlink ih =>
    rw [resolve, hlink] at h
    obtain ⟨hname, hnul⟩ := hpend name List.mem_cons_self
    exact ih (hres.concat hname hnul hlink) (fun n hn => hpend n (List.mem_cons_of_mem _ hn)) h
  | case6 resolved name rest target hlink => rw [resolve.eq_def] at h; simp [hlink] at h
  | case7 resolved name rest target hlink hops habs =>
    rw [resolve, hlink] at h; simp [habs] at h
  | case8 resolved name rest target hlink hops habs origin ih =>
    rw [resolve, hlink] at h
    simp only [habs] at h
    obtain ⟨loc, hw⟩ := exists_walk_of_linkTarget? hlink
    have hloc := (walk_eq_ok_iff.mp hw).2.lookup_loc rfl
    refine ih hres (fun n hn => ?_) h
    rcases List.mem_append.mp hn with hn | hn
    · exact pendingNames_ofPath (hwf.target hloc) origin n hn
    · exact hpend n (List.mem_cons_of_mem _ hn)

/-- What a path resolves to is checked. -/
theorem Checked.of_resolveWithin (hwf : t.WellFormed)
    (h : t.resolveWithin root entry = .ok names) : t.Checked root names := by
  unfold resolveWithin at h
  split at h
  · cases h
  · next hnul =>
    split at h
    · cases h
    · exact of_resolve hwf (.nil t root) (pendingNames_ofPath (by simpa using hnul) none) h

/-- A joined path is the root with checked names behind it. -/
theorem Checked.of_joinWithin (hwf : t.WellFormed) {q : Path}
    (h : t.joinWithin root entry = .ok q) :
    ∃ names, q = root.join (.ofNames names) ∧ t.Checked root names := by
  unfold joinWithin at h
  cases hres : t.resolveWithin root entry with
  | error f => rw [hres] at h; cases h
  | ok names =>
    rw [hres] at h
    cases h
    exact ⟨names, rfl, of_resolveWithin hwf hres⟩

/-- Checked names are resolved to themselves. -/
theorem Checked.resolve_eq {hops : Nat} {resolved : List Name}
    (h : t.Checked root (resolved ++ names)) :
    t.resolve root entry hops resolved (names.map .down) = .ok (resolved ++ names) := by
  induction names generalizing resolved with
  | nil => rw [List.map_nil, resolve, List.append_nil]
  | cons n rest ih =>
    rw [List.append_cons] at h ⊢
    have hn : t.linkTarget? (candidate root resolved n) = none := by
      rw [candidate_eq h.of_append.of_append.isName (h.isName n (by simp))]
      exact h.notLink (resolved ++ [n]) rest rfl (by simp)
    rw [List.map_cons, resolve, hn]
    exact ih h

/-- Checked names resolve to themselves. -/
theorem Checked.resolveWithin_eq (h : t.Checked root names) :
    t.resolveWithin root (.ofNames names) = .ok names := by
  have hpending : PendingPart.ofPath none (.ofNames names) = names.map .down := by
    unfold PendingPart.ofPath
    rw [Path.components_ofNames h.isName, List.flatMap_map]
    exact List.map_eq_flatMap.symm
  have hresolve : t.resolve root (.ofNames names) hopLimit [] (names.map .down) =
      .ok ([] ++ names) :=
    Checked.resolve_eq h
  unfold resolveWithin
  rw [Path.hasNul_ofNames h.nul_notMem, Path.isAbsolute_ofNames h.isName, hpending]
  simpa using hresolve

/-! ### What the answer leads to -/

/-- The way along checked names is clear from where the first of them lead, unless the path is too
long to be opened at all. -/
theorem Checked.clear_after {more : List Name} {k : Nat} {D : Location}
    (h : t.Checked root (names ++ more))
    (htext : checkText (root.join (.ofNames (names ++ more))) = .ok ())
    (harr : t.Arrives linkBudget (startOf root t.workdir) (root.steps ++ names) k D) :
    t.Clear D more := by
  -- The names move from `more` to `names` one by one, as far as there are directories.
  induction more generalizing names k D with
  | nil => trivial
  | cons n rest ih =>
    intro hs hlen
    have hn := h.isName n (by simp)
    have hseg : IsLookedUp n := isLookedUp_of_isName hn hlen
    rw [List.append_cons] at h htext
    refine ⟨fun target hl => ?_, ?_⟩
    · -- A link here would have been found when the name was looked at.
      have hnames : ∀ m ∈ names ++ [n], IsName m := h.of_append.isName
      have hlead := checkText_of_longer htext
        (Path.isEmpty_join hnames (by simp) root)
        (Path.bytes_join_prefix hnames (fun m hm => h.isName m (by simp [hm])) root)
      have hwalk : t.walk false (root.join (.ofNames (names ++ [n]))) =
          .ok (.node (D ++ [n]) (.link target)) := by
        rw [walk_join_eq_ok_iff hnames (by simp), ← List.append_assoc]
        exact ⟨hlead, harr.walks (by simp) (.endLink hs hseg hl rfl)⟩
      have hnone := h.notLink (names ++ [n]) rest rfl (by simp)
      rw [linkTarget?_of_walk hwalk] at hnone
      cases hnone
    · by_cases hdir : ∃ m, t.lookup (D ++ [n]) = some (.directory m)
      · obtain ⟨m, hm⟩ := hdir
        have harr' := harr.append (.down hs hseg hm .here)
        rw [List.append_assoc] at harr'
        exact ih h htext harr'
      · exact clear_of_not_canSearch (fun hs => hdir (directory_of_canSearch hs)) rest

/-- The way along checked names is clear from the directory that the root denotes. -/
theorem Checked.clear {k : Nat} {D : Location} (h : t.Checked root names)
    (htext : checkText (root.join (.ofNames names)) = .ok ())
    (harr : t.Arrives linkBudget (startOf root t.workdir) root.steps k D) : t.Clear D names := by
  rw [← List.append_nil root.steps] at harr
  exact Checked.clear_after (List.nil_append names ▸ h) htext harr

/-- Opening a checked path leads to the place that its names spell below the directory that the
root denotes. The walk from there needs no link and ends at none. -/
theorem Checked.walk (h : t.Checked root names) {follow : Bool} {spot : Spot}
    (hw : t.walk follow (root.join (.ofNames names)) = .ok spot) :
    ∃ D, t.directoryAt? root = some D ∧ spot.loc = D ++ names ∧
      t.walkFrom false 0 D names = .ok spot ∧
      (names ≠ [] → ∀ loc target, spot ≠ .node loc (.link target)) := by
  cases names with
  | nil =>
    -- Without names the path is the root with a slash, which asks for a directory.
    obtain ⟨-, hwalks⟩ := walk_join_nil_eq_ok_iff.mp hw
    obtain ⟨k, D, harr, hslash⟩ := hwalks.arrives (by simp)
    cases hslash with
    | stay hs hrest =>
      refine ⟨D, directoryAt?_eq_some_iff.mpr ⟨⟨k, harr⟩, hs.directory⟩, ?_⟩
      cases hrest
      exact ⟨by simp [Spot.loc], Walks.here.walkFrom, fun hne => absurd rfl hne⟩
    | down _ hseg | link _ hseg | endVacant _ hseg | endFile _ hseg | endLink _ hseg =>
      exact absurd rfl hseg.ne_trailing
  | cons n rest =>
    obtain ⟨htext, hwalks⟩ := (walk_join_eq_ok_iff h.isName (by simp)).mp hw
    obtain ⟨k, D, harr, hnames⟩ := hwalks.arrives (by simp)
    have hdir := hnames.directory_of_names h.isName (by simp)
    refine ⟨D, directoryAt?_eq_some_iff.mpr ⟨⟨k, harr⟩, hdir⟩, ?_⟩
    obtain ⟨hloc, hzero, hnolink⟩ := hnames.of_clear h.isName (h.clear htext harr)
    exact ⟨hloc, hzero.walkFrom, hnolink⟩

/-- A path that is joined onto a root stays below it, on every tree, links that lead nowhere or in
circles included. The answer is the root with plain names behind it. No leading part of these
names, seen from the root, is a link. Whatever the answer leads to, with the last link followed or
not, is where the names lead from the root's directory without any link. Joining the names again
gives the same answer. -/
theorem joinWithin_sound (hwf : t.WellFormed) {q : Path} (h : t.joinWithin root entry = .ok q) :
    ∃ names : List Name, q = root.join (.ofNames names) ∧
      (Path.ofNames names).components = names.map .normal ∧
      (∀ first more, names = first ++ more → first ≠ [] →
        t.linkTarget? (root.join (.ofNames first)) = none) ∧
      (∀ follow spot, t.walk follow q = .ok spot →
        ∃ D, t.directoryAt? root = some D ∧ spot.loc = D ++ names ∧
          t.walkFrom false 0 D names = .ok spot ∧
          (names ≠ [] → ∀ loc target, spot ≠ .node loc (.link target))) ∧
      t.joinWithin root (.ofNames names) = .ok q := by
  obtain ⟨names, rfl, hchecked⟩ := Checked.of_joinWithin hwf h
  refine ⟨names, rfl, Path.components_ofNames hchecked.isName, hchecked.notLink,
    fun follow spot hw => hchecked.walk hw, ?_⟩
  unfold joinWithin
  rw [hchecked.resolveWithin_eq]
  rfl

/-- A tree with a directory `a` in which `b` is a link to `./c`. -/
def linkedTree : FileTree where
  nodes := [([[0x61]], .directory 0o755), ([[0x61], [0x62]], .link (.ofString "./c"))]
  workdir := []

/-- Below `a`, the path `b/../b/d` leads to `a/c/d`. -/
theorem joinWithin_linkedTree_sound :
    ∃ names : List Name, Path.ofString "a/c/d" = (Path.ofString "a").join (.ofNames names) ∧
      (Path.ofNames names).components = names.map .normal ∧
      (∀ first more, names = first ++ more → first ≠ [] →
        linkedTree.linkTarget? ((Path.ofString "a").join (.ofNames first)) = none) ∧
      (∀ follow spot, linkedTree.walk follow (.ofString "a/c/d") = .ok spot →
        ∃ D, linkedTree.directoryAt? (.ofString "a") = some D ∧ spot.loc = D ++ names ∧
          linkedTree.walkFrom false 0 D names = .ok spot ∧
          (names ≠ [] → ∀ loc target, spot ≠ .node loc (.link target))) ∧
      linkedTree.joinWithin (.ofString "a") (.ofNames names) = .ok (.ofString "a/c/d") :=
  @joinWithin_sound linkedTree (.ofString "a") (.ofString "b/../b/d") (by decide) _ (by cbv)

end ImageBuild.FileTree
