import ImageBuild.Proofs.Tree.Walk
import Mathlib.Data.List.Induction

/-!
# `ImageBuild.Proofs.Tree.Change`: what one change to a tree can do

A change that succeeds puts one node at one location, and `FileTree.Fits` says when that keeps the
tree in order: the location is in a directory, it is vacant or a file makes room for a file, and
the node is no link. Each operation has one lemma that says all it can do:

* `makeDirectory_cases`: nothing, or a directory at the vacant spot that the path leads to.
* `createAncestors_induction`: what holds through each of its single steps holds at its end. So it
  only adds directories (`createAll_adds`), and if it succeeds, its path leads to a directory
  (`isDirectory_of_createAll`).
* `openEmpty_cases`: nothing, or an empty file where the path leads. The path leads to the file
  from then on (`walk_of_openEmpty`).
* `fill_eq` and `changeMode_eq`: a file in place of the file (`Fits.written`).
* `remove_of_made`: what was put at a vacant spot is removed by its path, with all that is below
  it.
-/

set_option autoImplicit false

namespace ImageBuild.FileTree

variable {t : FileTree} {loc : Location} {n : Node}

/-! ### Putting a node at a location -/

/-- The node can be put at the location: that is in a directory, and either it is vacant or a file
takes the place of a file. -/
structure Fits (t : FileTree) (loc : Location) (n : Node) : Prop where
  inDirectory : ∃ dir name m, loc = dir ++ [name] ∧ t.lookup dir = some (.directory m)
  room : t.lookup loc = none ∨
    n.isFile = true ∧ ∃ m content, t.lookup loc = some (.file m content)
  notLink : n.isLink = false

namespace Fits

/-- A node fits below the root only. -/
theorem ne_nil (h : t.Fits loc n) : loc ≠ [] := by
  obtain ⟨dir, name, m, rfl, -⟩ := h.inDirectory
  simp

/-- A node that fits is found where it was set. -/
theorem lookup_set_self (h : t.Fits loc n) : (t.set loc n).lookup loc = some n := by
  rw [lookup_set t loc n h.ne_nil, if_pos rfl]

/-- The other locations keep what they hold. -/
theorem lookup_set_ne (h : t.Fits loc n) {other : Location} (hne : other ≠ loc) :
    (t.set loc n).lookup other = t.lookup other := by
  rw [lookup_set t loc n h.ne_nil, if_neg hne]

/-- Setting it only adds to the tree. -/
theorem growsInto (h : t.Fits loc n) : t.GrowsInto (t.set loc n) := by
  cases n with
  | directory m =>
    refine growsInto_set_directory m (h.room.resolve_right fun hfile => ?_)
    exact absurd hfile.1 (by simp [Node.isFile])
  | file m content => exact growsInto_set_file m content (h.room.imp_right And.right)
  | link target => exact absurd h.notLink (by simp [Node.isLink])

/-- No directory makes room for anything. -/
theorem not_directory (h : t.Fits loc n) (m : Mode) : t.lookup loc ≠ some (.directory m) := by
  intro hm
  rcases h.room with hnone | ⟨-, m', content, hfile⟩
  · rw [hnone] at hm; cases hm
  · rw [hfile] at hm; cases hm

/-- Setting it keeps the tree well formed. -/
theorem wellFormed (h : t.Fits loc n) (hwf : t.WellFormed) : (t.set loc n).WellFormed := by
  have hold := h.not_directory
  obtain ⟨dir, name, m, rfl, hdir⟩ := h.inDirectory
  refine hwf.set ⟨m, hdir⟩ hold fun target heq => ?_
  have := h.notLink
  simp [heq, Node.isLink] at this

/-- A file that was put somewhere can be replaced by another one. -/
theorem again {m m' : Mode} {content content' : Bytes} (h : t.Fits loc (.file m content)) :
    (t.set loc (.file m content)).Fits loc (.file m' content') where
  inDirectory := by
    obtain ⟨dir, name, mode, rfl, hdir⟩ := h.inDirectory
    exact ⟨dir, name, mode, rfl, h.growsInto.directory hdir⟩
  room := Or.inr ⟨rfl, m, content, h.lookup_set_self⟩
  notLink := rfl

/-- A file fits where a file is. -/
theorem of_file (hwf : t.WellFormed) {loc : Location} {m m' : Mode} {content content' : Bytes}
    (h : t.lookup loc = some (.file m content)) : t.Fits loc (.file m' content') where
  inDirectory := by
    rcases List.eq_nil_or_concat loc with rfl | ⟨dir, name, rfl⟩
    · simp at h
    · rw [List.concat_eq_append] at h ⊢
      obtain ⟨mode, hdir⟩ := hwf.parent h
      exact ⟨dir, name, mode, rfl, hdir⟩
  room := Or.inr ⟨rfl, m, content, h⟩
  notLink := rfl

/-- What is no link fits where a walk found nothing. -/
theorem of_vacant {follow : Bool} {p : Path} {dir : Location} {name : Name}
    (h : t.walk follow p = .ok (.vacant dir name)) (hn : n.isLink = false) :
    t.Fits (dir ++ [name]) n := by
  obtain ⟨hnone, hsearch⟩ := (walk_eq_ok_iff.mp h).2.vacant
  obtain ⟨m, hdir⟩ := directory_of_canSearch hsearch
  exact ⟨⟨dir, name, m, rfl, hdir⟩, Or.inl hnone, hn⟩

end Fits

/-! ### Removing -/

/-- A node that is put at a place or below it is removed with the place. -/
theorem erase_set_inside (t : FileTree) {D : Location} (hloc : D <+: loc) (n : Node) :
    (t.set loc n).erase D = t.erase D := by
  have hnew : D.isPrefixOf loc = true := List.isPrefixOf_iff_prefix.mpr hloc
  have hold : ∀ entry : Location × Node,
      (!D.isPrefixOf entry.1 && entry.1 != loc) = !D.isPrefixOf entry.1 := by
    intro entry
    by_cases heq : entry.1 = loc
    · simp [heq, hnew]
    · simp [heq]
  unfold FileTree.set erase
  simp [hnew, List.filter_filter, hold]

/-- What was made at the vacant spot that a path led to is found there, and it is removed with all
that is in it. -/
theorem remove_of_made {t' : FileTree} {p : Path} {dir : Location} {name : Name}
    (h : t.walk false p = .ok (.vacant dir name)) (halter : t.canAlter dir = true)
    (hg : t.GrowsInto t') (hn : t'.lookup (dir ++ [name]) = some n) :
    t'.find false p = .ok (dir ++ [name], n) ∧
    t'.remove p = (.ok (), t'.erase (dir ++ [name])) := by
  obtain ⟨htext, hwalks⟩ := walk_eq_ok_iff.mp h
  have hthere : t'.Walks false linkBudget (startOf p t.workdir) (walkSegments p)
      (.node (dir ++ [name]) n) := by
    cases n with
    | directory m => exact hwalks.directory_of_made hg hn
    | file m content => exact hwalks.file_of_made hg hn
    | link target =>
      -- No link appears in a tree that grows.
      have hlink := hg.link.mp hn
      rw [hwalks.vacant.1] at hlink
      cases hlink
  rw [← hg.workdir] at hthere
  have hfound := walk_eq_ok_iff.mpr ⟨htext, hthere⟩
  have hfind : t'.find false p = .ok (dir ++ [name], n) := by
    unfold find
    rw [hfound]
    rfl
  refine ⟨hfind, ?_⟩
  unfold FileTree.remove
  rw [hfind]
  simp [hg.canAlter halter]

/-! ### Making directories -/

/-- A path that does not end in a slash has none to take away. -/
theorem withoutTrailingSlash_eq_self {p : Path} (h : p.bytes.getLast? ≠ some slash) :
    withoutTrailingSlash p = p := by
  obtain ⟨bytes⟩ := p
  rcases List.eq_nil_or_concat bytes with rfl | ⟨front, b, rfl⟩
  · rfl
  · have hb : (b == slash) = false := by simpa using h
    simp [withoutTrailingSlash, Path.isEmpty, hb]

/-- A slash more at the end is taken away with the others. -/
theorem withoutTrailingSlash_concat {bytes : Bytes} (hne : bytes ≠ []) :
    withoutTrailingSlash ⟨bytes ++ [slash]⟩ = withoutTrailingSlash ⟨bytes⟩ := by
  simp [withoutTrailingSlash, Path.isEmpty, hne]

/-- Slashes at the end of a path say nothing. -/
theorem spelling_withoutTrailingSlash (p : Path) :
    (withoutTrailingSlash p).components = p.components ∧
    (withoutTrailingSlash p).steps = p.steps ∧
      (withoutTrailingSlash p).isAbsolute = p.isAbsolute := by
  obtain ⟨bytes⟩ := p
  -- The slashes are taken away from the end, so the induction is on the last byte.
  induction bytes using List.reverseRecOn with
  | nil => exact ⟨rfl, rfl, rfl⟩
  | append_singleton front b ih =>
    by_cases hb : b = slash
    · subst hb
      by_cases hne : front = []
      · subst hne; exact ⟨rfl, rfl, rfl⟩
      · have hsteps : Path.steps ⟨front ++ [slash]⟩ = Path.steps ⟨front⟩ := by
          simp [Path.steps, Path.segments_concat_slash]
        have habs : Path.isAbsolute ⟨front ++ [slash]⟩ = Path.isAbsolute ⟨front⟩ := by
          obtain ⟨first, rest, rfl⟩ := List.exists_cons_of_ne_nil hne
          rfl
        rw [withoutTrailingSlash_concat hne, Path.components_concat_slash hne, hsteps, habs]
        exact ih
    · rw [withoutTrailingSlash_eq_self (by simpa using hb)]
      exact ⟨rfl, rfl, rfl⟩

/-- A trailing slash is no component. -/
theorem components_withoutTrailingSlash (p : Path) :
    (withoutTrailingSlash p).components = p.components :=
  (spelling_withoutTrailingSlash p).1

/-- A walk that asks for a directory at its end has looked for names there, so it ends at one. -/
theorem directory_of_walkSegments_ne {follow : Bool} {k : Nat} {here : Location} {spot : Spot}
    {p : Path} (h : t.Walks follow k here (walkSegments p) spot)
    (hne : walkSegments p ≠ p.steps) :
    ∃ m, spot = .node spot.loc (.directory m) := by
  unfold walkSegments at h hne
  split at h
  · obtain ⟨k', D, -, hdot⟩ := h.arrives (by simp)
    cases hdot with
    | stay hs hrest =>
      cases hrest
      obtain ⟨m, hm⟩ := hs.directory
      exact ⟨m, by simp [Spot.loc, hm]⟩
    | down _ hseg | link _ hseg | endVacant _ hseg | endFile _ hseg | endLink _ hseg =>
      exact absurd rfl hseg.ne_trailing
  · next hlast =>
    exact absurd (by simp [hlast, Path.steps]) hne

/-- A walk that ends at a vacant spot asks for no directory at the end. -/
theorem walkSegments_of_vacant {follow : Bool} {k : Nat} {here dir : Location} {name : Name}
    {p : Path} (h : t.Walks follow k here (walkSegments p) (.vacant dir name)) :
    walkSegments p = p.steps := by
  refine Decidable.byContradiction fun hne => ?_
  obtain ⟨m, hm⟩ := directory_of_walkSegments_ne h hne
  cases hm

/-- A directory that takes the vacant spot at the end of a path is what the path then denotes. -/
theorem directoryAt?_of_made {follow : Bool} {p : Path} {dir : Location} {name : Name} {m : Mode}
    {t' : FileTree} (h : t.walk follow p = .ok (.vacant dir name)) (hg : t.GrowsInto t')
    (hm : t'.lookup (dir ++ [name]) = some (.directory m)) :
    t'.directoryAt? p = some (dir ++ [name]) := by
  have hwalks := (walk_eq_ok_iff.mp h).2
  rw [walkSegments_of_vacant hwalks] at hwalks
  obtain ⟨k, harr⟩ := hwalks.arrives_of_made hg hm
  rw [← hg.workdir] at harr
  exact directoryAt?_eq_some_iff.mpr ⟨⟨k, harr⟩, m, hm⟩

/-- Making a directory does nothing, or it takes the vacant spot that the path leads to. -/
theorem makeDirectory_cases (t : FileTree) (p : Path) (asked : Mode) :
    (∃ f, t.makeDirectory p asked = (.error f, t)) ∨
    ∃ dir name m, t.walk false (withoutTrailingSlash p) = .ok (.vacant dir name) ∧
      t.Fits (dir ++ [name]) (.directory m) ∧
      t.makeDirectory p asked = (.ok (), t.set (dir ++ [name]) (.directory m)) := by
  unfold makeDirectory
  cases checkText p with
  | error f => exact Or.inl ⟨f, rfl⟩
  | ok =>
    dsimp only
    cases hwalk : t.walk false (withoutTrailingSlash p) with
    | error f => exact Or.inl ⟨f, rfl⟩
    | ok spot =>
      cases spot with
      | node loc n => exact Or.inl ⟨_, rfl⟩
      | vacant dir name =>
        cases halter : t.canAlter dir with
        | true =>
          simp only [halter, if_true]
          exact Or.inr ⟨dir, name, _, rfl, .of_vacant hwalk rfl, rfl⟩
        | false =>
          simp only [halter, Bool.false_eq_true, if_false]
          exact Or.inl ⟨_, rfl⟩

/-- Keeping a directory leaves the tree as making it does. -/
theorem tree_makeOrKeep (t : FileTree) (p : Path) :
    (t.makeOrKeep p).2 = (t.makeDirectory p 0o777).2 := by
  unfold makeOrKeep
  rcases t.makeDirectory p 0o777 with ⟨f | _, t'⟩
  · cases hdir : t.isDirectory p <;> simp
  · rfl

/-- Making a directory with all that is missing above it makes directories one by one, each at a
path above the one that was asked for. A property that each such step keeps holds at the end. -/
theorem createAncestors_induction {holds : FileTree → Prop} {isAsked : Path → Prop}
    (hup : ∀ {p up : Path}, isAsked p → p.parent? = some up → isAsked up)
    (hstep : ∀ {t : FileTree} {p : Path}, holds t → isAsked p →
      holds (t.makeDirectory p 0o777).2)
    (depth : Nat) {t : FileTree} {p : Path} (ht : holds t) (hp : isAsked p) :
    holds (createAncestors depth t p).2 := by
  have hkeep : ∀ {t : FileTree} {p : Path}, holds t → isAsked p → holds (t.makeOrKeep p).2 :=
    fun ht hp => by rw [tree_makeOrKeep]; exact hstep ht hp
  -- On the depth, as the recursion is. A level makes the path, its ancestors, and the path again.
  induction depth generalizing t p with
  | zero => rw [createAncestors]; exact hkeep ht hp
  | succ depth ih =>
    rw [createAncestors]
    split
    · exact ht
    · have hfirst := hkeep ht hp
      split
      · next t₁ heq =>
        rw [heq] at hfirst
        cases hparent : p.parent? with
        | none => exact hfirst
        | some up =>
          have habove := ih hfirst (hup hp hparent)
          dsimp only
          rcases habove' : createAncestors depth t₁ up with ⟨f | _, t₂⟩
          · rw [habove'] at habove; exact habove
          · rw [habove'] at habove; exact hkeep habove hp
      · exact hfirst

/-- Directories were made where nothing was, and nothing else has changed. -/
structure AddsDirectories (t t' : FileTree) : Prop where
  wellFormed : t'.WellFormed
  grows : t.GrowsInto t'
  kept : ∀ loc : Location, t.lookup loc ≠ none → t'.lookup loc = t.lookup loc
  made : ∀ loc : Location, t.lookup loc = none →
    t'.lookup loc = none ∨ ∃ m, t'.lookup loc = some (.directory m)

/-- A tree adds nothing to itself. -/
theorem AddsDirectories.refl (hwf : t.WellFormed) : t.AddsDirectories t :=
  ⟨hwf, .refl t, fun _ _ => rfl, fun _ h => Or.inl h⟩

/-- Making a directory with all that is missing above it makes nothing but directories. -/
theorem createAll_adds (hwf : t.WellFormed) (p : Path) : t.AddsDirectories (t.createAll p).2 := by
  have hstep : ∀ {t₁ : FileTree} {p : Path}, t.AddsDirectories t₁ → True →
      t.AddsDirectories (t₁.makeDirectory p 0o777).2 := by
    intro t₁ p h _
    rcases t₁.makeDirectory_cases p 0o777 with ⟨f, heq⟩ | ⟨dir, name, m, hwalk, hfits, heq⟩
    · rw [heq]; exact h
    · rw [heq]
      have hvacant := (walk_eq_ok_iff.mp hwalk).2.vacant.1
      refine ⟨hfits.wellFormed h.wellFormed, h.grows.trans hfits.growsInto, fun loc hloc => ?_,
        fun loc hloc => ?_⟩
      · rw [hfits.lookup_set_ne, h.kept loc hloc]
        rintro rfl
        exact hloc ((h.kept _ hloc).symm.trans hvacant)
      · by_cases heq : loc = dir ++ [name]
        · subst heq
          exact Or.inr ⟨m, hfits.lookup_set_self⟩
        · rw [hfits.lookup_set_ne heq]
          exact h.made loc hloc
  exact createAncestors_induction (fun _ _ => trivial) hstep _ (.refl hwf) trivial

/-- A path exists when its walk ends at a node, links followed. -/
theorem pathExists_iff {p : Path} :
    t.pathExists p = true ↔ ∃ loc n, t.walk true p = .ok (.node loc n) := by
  unfold pathExists find
  rcases t.walk true p with f | ⟨loc, n⟩ | ⟨dir, name⟩ <;>
    simp [bind, Except.bind, pure, Except.pure, throw, throwThe, MonadExceptOf.throw, Except.isOk,
      Except.toBool]

/-- It is a directory when that node is one. -/
theorem isDirectory_iff {p : Path} :
    t.isDirectory p = true ↔ ∃ loc m, t.walk true p = .ok (.node loc (.directory m)) := by
  unfold isDirectory find
  rcases t.walk true p with f | ⟨loc, n⟩ | ⟨dir, name⟩
  · simp [bind, Except.bind]
  · cases n <;> simp [bind, Except.bind, pure, Except.pure, Node.isDirectory]
  · simp [bind, Except.bind, throw, throwThe, MonadExceptOf.throw]

/-- It is a file when that node is one. -/
theorem isFile_iff {p : Path} :
    t.isFile p = true ↔ ∃ loc m content, t.walk true p = .ok (.node loc (.file m content)) := by
  unfold isFile find
  rcases t.walk true p with f | ⟨loc, n⟩ | ⟨dir, name⟩
  · simp [bind, Except.bind]
  · cases n <;> simp [bind, Except.bind, pure, Except.pure, Node.isFile]
  · simp [bind, Except.bind, throw, throwThe, MonadExceptOf.throw]

/-- What is a directory exists. -/
theorem pathExists_of_isDirectory {p : Path} (h : t.isDirectory p = true) :
    t.pathExists p = true := by
  obtain ⟨loc, m, hwalk⟩ := isDirectory_iff.mp h
  exact pathExists_iff.mpr ⟨loc, _, hwalk⟩

/-- A path that leads to a directory leads to no file. -/
theorem isFile_of_isDirectory {p : Path} (h : t.isDirectory p = true) : t.isFile p = false := by
  obtain ⟨loc, m, hwalk⟩ := isDirectory_iff.mp h
  rw [← Bool.not_eq_true, isFile_iff, hwalk]
  simp

/-- The empty path leads to no directory. -/
theorem isEmpty_of_isDirectory {p : Path} (h : t.isDirectory p = true) : p.isEmpty = false := by
  obtain ⟨loc, m, hwalk⟩ := isDirectory_iff.mp h
  exact (checkText_eq_ok_iff.mp (walk_eq_ok_iff.mp hwalk).1).2.1

/-- A path to a directory leads there, with a slash at its end or without. -/
theorem isDirectory_of_directoryAt? {p : Path} {D : Location} (htext : checkText p = .ok ())
    (hD : t.directoryAt? p = some D) : t.isDirectory p = true := by
  obtain ⟨⟨k, harr⟩, m, hm⟩ := directoryAt?_eq_some_iff.mp hD
  have hwalks : t.Walks true linkBudget (startOf p t.workdir) (walkSegments p)
      (.node D ((t.lookup D).getD (.directory defaultMode))) := by
    unfold walkSegments
    split
    · exact (harr.append (.stay (.trailing (hasDirectory_iff.mpr ⟨m, hm⟩)) .here)).walks_end
    · rw [List.append_nil]; exact harr.walks_end
  rw [hm] at hwalks
  exact isDirectory_iff.mpr ⟨D, m, walk_eq_ok_iff.mpr ⟨htext, hwalks⟩⟩

/-- A path that leads to something does so after the tree has grown. -/
theorem GrowsInto.pathExists {t' : FileTree} (hg : t.GrowsInto t') (hwf : t.WellFormed) {p : Path}
    (h : t.pathExists p = true) : t'.pathExists p = true := by
  obtain ⟨loc, n, hwalk⟩ := pathExists_iff.mp h
  obtain ⟨n', -, hwalk'⟩ := hg.walk hwalk (hwf.lookup_of_walk hwalk)
  exact pathExists_iff.mpr ⟨loc, n', hwalk'⟩

/-- A path that leads to a directory does so after the tree has grown. -/
theorem GrowsInto.isDirectory {t' : FileTree} (hg : t.GrowsInto t') (hwf : t.WellFormed)
    {p : Path} (h : t.isDirectory p = true) : t'.isDirectory p = true := by
  obtain ⟨loc, m, hwalk⟩ := isDirectory_iff.mp h
  have hthere := hwf.lookup_of_walk hwalk
  obtain ⟨n', hn', hwalk'⟩ := hg.walk hwalk hthere
  cases hn'.symm.trans (hg.directory hthere)
  exact isDirectory_iff.mpr ⟨loc, m, hwalk'⟩

/-- A path that leads to a file leads to one in the same place after the tree has grown. -/
theorem GrowsInto.walk_file {t' : FileTree} (hg : t.GrowsInto t') (hwf : t.WellFormed) {p : Path}
    {m : Mode} {content : Bytes} (h : t.walk true p = .ok (.node loc (.file m content))) :
    ∃ m' content', t'.walk true p = .ok (.node loc (.file m' content')) := by
  have hthere := hwf.lookup_of_walk h
  obtain ⟨n', hn', hwalk'⟩ := hg.walk h hthere
  obtain ⟨m', content', hfile⟩ := hg.file hthere
  cases hn'.symm.trans hfile
  exact ⟨m', content', hwalk'⟩

/-- A path leads to the directory that was made for it. -/
theorem isDirectory_of_makeDirectory {t' : FileTree} {p : Path}
    (h : t.makeDirectory p 0o777 = (.ok (), t')) : t'.isDirectory p = true := by
  have htext : checkText p = .ok () := by
    unfold makeDirectory at h
    cases htext : checkText p with
    | error f => rw [htext] at h; cases h
    | ok => rfl
  rcases t.makeDirectory_cases p 0o777 with ⟨f, heq⟩ | ⟨dir, name, m, hwalk, hfits, heq⟩
  · rw [h] at heq
    cases heq
  · rw [h] at heq
    obtain rfl : t' = t.set (dir ++ [name]) (.directory m) := congrArg Prod.snd heq
    -- The spot is what the path denotes now, spelled with a slash at the end or without.
    have hD := directoryAt?_of_made hwalk hfits.growsInto hfits.lookup_set_self
    obtain ⟨-, hsteps, habs⟩ := spelling_withoutTrailingSlash p
    rw [directoryAt?, startOf, hsteps, habs, ← startOf, ← directoryAt?] at hD
    exact isDirectory_of_directoryAt? htext hD

/-- A path leads to the directory that was made or kept for it. -/
theorem isDirectory_of_makeOrKeep {t' : FileTree} {p : Path} (h : t.makeOrKeep p = (.ok (), t')) :
    t'.isDirectory p = true := by
  unfold makeOrKeep at h
  rcases hmake : t.makeDirectory p 0o777 with ⟨f | _, t₁⟩
  · -- A directory that is kept was there before, and nothing was done.
    have htree : t₁ = t := by
      rcases t.makeDirectory_cases p 0o777 with ⟨f', heq⟩ | ⟨dir, name, m, -, -, heq⟩
      · exact congrArg Prod.snd (hmake.symm.trans heq)
      · cases hmake.symm.trans heq
    rw [hmake, htree] at h
    cases hdir : t.isDirectory p with
    | true =>
      obtain rfl : t = t' := by simpa [hdir] using h
      exact hdir
    | false => simp [hdir] at h
  · rw [hmake] at h
    cases h
    exact isDirectory_of_makeDirectory hmake

/-- A path for which directories were made leads to one, unless it is empty. -/
theorem isDirectory_of_createAll {t' : FileTree} {p : Path} (h : t.createAll p = (.ok (), t')) :
    p.isEmpty = true ∨ t'.isDirectory p = true := by
  have hcreate : ∀ depth, createAncestors depth t p = (.ok (), t') →
      p.isEmpty = true ∨ ∃ t₀ : FileTree, t₀.makeOrKeep p = (.ok (), t') := by
    -- Whatever is made above the path, its own directory is made last.
    intro depth hdone
    cases depth with
    | zero => exact Or.inr ⟨t, hdone⟩
    | succ depth =>
      rw [createAncestors] at hdone
      split at hdone
      · next hempty =>
        exact Or.inl hempty
      · refine Or.inr ?_
        split at hdone
        · split at hdone
          · cases hdone
          · split at hdone
            · cases hdone
            · exact ⟨_, hdone⟩
        · exact ⟨t, hdone⟩
  refine (hcreate _ h).imp_right ?_
  rintro ⟨t₀, hkeep⟩
  exact isDirectory_of_makeOrKeep hkeep

/-- Where a directory is, none can be made. -/
theorem makeDirectory_of_isDirectory {p : Path} (h : t.isDirectory p = true) (asked : Mode) :
    ∃ f, t.makeDirectory p asked = (.error f, t) := by
  refine (t.makeDirectory_cases p asked).resolve_right ?_
  rintro ⟨dir, name, m, hvacant, -, -⟩
  -- The path would lead to a vacant spot, with the slash at its end or without.
  obtain ⟨loc, mode, hwalk⟩ := isDirectory_iff.mp h
  have hthere := (walk_eq_ok_iff.mp hwalk).2
  have hfree := (walk_eq_ok_iff.mp hvacant).2
  rw [walkSegments_of_vacant hfree] at hfree
  obtain ⟨-, hsteps, habs⟩ := spelling_withoutTrailingSlash p
  rw [hsteps, startOf, habs, ← startOf] at hfree
  unfold walkSegments at hthere
  split at hthere
  · obtain ⟨k, D, harr, -⟩ := hthere.arrives (by simp)
    cases harr.walks_end.unique hfree.follow_of_vacant
  · rw [List.append_nil] at hthere
    cases hthere.unique hfree.follow_of_vacant

/-- A directory that is there is kept. -/
theorem createAll_of_isDirectory {p : Path} (h : t.isDirectory p = true) :
    t.createAll p = (.ok (), t) := by
  obtain ⟨f, hmake⟩ := makeDirectory_of_isDirectory h 0o777
  have hkeep : t.makeOrKeep p = (.ok (), t) := by
    unfold makeOrKeep
    rw [hmake]
    dsimp only
    rw [if_pos h]
  unfold createAll
  rw [createAncestors, hkeep]
  split <;> rfl

/-- For the empty path nothing is made. -/
theorem createAll_of_isEmpty (t : FileTree) {p : Path} (h : p.isEmpty = true) :
    t.createAll p = (.ok (), t) := by
  unfold createAll
  rw [createAncestors, if_pos h]

/-! ### Opening and filling files -/

/-- A path that leads to something other than a directory does not end in a slash. -/
theorem getLast?_of_walk {follow : Bool} {p : Path} {spot : Spot} (h : t.walk follow p = .ok spot)
    (hspot : ∀ m, spot ≠ .node spot.loc (.directory m)) : p.bytes.getLast? ≠ some slash := by
  intro hslash
  have hne : walkSegments p ≠ p.steps := by simp [walkSegments, Path.steps, hslash]
  obtain ⟨m, hm⟩ := directory_of_walkSegments_ne (walk_eq_ok_iff.mp h).2 hne
  exact hspot m hm

/-- A path that leads to a vacant spot is opened as a new file there. -/
theorem openEmpty_of_vacant {p : Path} {dir : Location} {name : Name}
    (h : t.walk true p = .ok (.vacant dir name)) (halter : t.canAlter dir = true) (asked : Mode) :
    t.openEmpty p asked =
      (.ok (dir ++ [name]), t.set (dir ++ [name]) (.file (asked &&& ~~~umask) [])) := by
  have hlast := getLast?_of_walk h (by simp)
  unfold openEmpty
  simp [(walk_eq_ok_iff.mp h).1, hlast, h, halter]

/-- A path that leads to a file is opened as that file, if it may be written. -/
theorem openEmpty_of_file {p : Path} {loc : Location} {m : Mode} {content : Bytes}
    (h : t.walk true p = .ok (.node loc (.file m content))) (asked : Mode) :
    t.openEmpty p asked =
      if (Node.file m []).writable then (.ok loc, t.set loc (.file m [])) else
      (.error .denied, t) := by
  have hlast := getLast?_of_walk h (by simp)
  unfold openEmpty
  simp [(walk_eq_ok_iff.mp h).1, hlast, h]

/-- Opening a file for writing does nothing, or it leaves an empty file where the path leads. -/
theorem openEmpty_cases (hwf : t.WellFormed) (p : Path) (asked : Mode) :
    (∃ f, t.openEmpty p asked = (.error f, t)) ∨
    ∃ spot m, p.bytes.getLast? ≠ some slash ∧ t.walk true p = .ok spot ∧
      t.Fits spot.loc (.file m []) ∧
      t.openEmpty p asked = (.ok spot.loc, t.set spot.loc (.file m [])) := by
  cases htext : checkText p with
  | error f => exact Or.inl ⟨f, by rw [openEmpty, htext]⟩
  | ok =>
    by_cases hlast : p.bytes.getLast? = some slash
    · -- A path that asks for a directory is never opened.
      unfold openEmpty
      simp only [htext, hlast, beq_self_eq_true, if_true]
      split <;> exact Or.inl ⟨_, rfl⟩
    · unfold openEmpty
      simp only [htext, beq_iff_eq, hlast, if_false]
      cases hwalk : t.walk true p with
      | error f => exact Or.inl ⟨f, rfl⟩
      | ok spot =>
        cases spot with
        | vacant dir name =>
          cases halter : t.canAlter dir with
          | true => exact Or.inr ⟨_, _, hlast, rfl, .of_vacant hwalk rfl, if_pos halter⟩
          | false => exact Or.inl ⟨_, if_neg (Bool.eq_false_iff.mp halter)⟩
        | node loc n =>
          cases n with
          | directory m | link target => exact Or.inl ⟨_, rfl⟩
          | file m content =>
            cases hwritable : (Node.file m []).writable with
            | true =>
              have hfile := (walk_eq_ok_iff.mp hwalk).2.lookup_loc rfl
              exact Or.inr ⟨_, m, hlast, rfl, .of_file hwf hfile, if_pos hwritable⟩
            | false => exact Or.inl ⟨_, if_neg (Bool.eq_false_iff.mp hwritable)⟩

/-- A path that was opened leads to the file that is there, also after the tree has grown. -/
theorem walk_of_openEmpty (hwf : t.WellFormed) {t' u : FileTree} {p : Path} {asked m : Mode}
    {content : Bytes} (h : t.openEmpty p asked = (.ok loc, t')) (hg : t.GrowsInto u)
    (hfile : u.lookup loc = some (.file m content)) :
    u.walk true p = .ok (.node loc (.file m content)) := by
  rcases openEmpty_cases hwf p asked with ⟨f, heq⟩ | ⟨spot, m', -, hwalk, -, heq⟩
  · rw [h] at heq; cases heq
  · rw [h] at heq
    cases heq
    cases spot with
    | node loc n =>
      obtain ⟨n', hn', hwalk'⟩ := hg.walk hwalk (hwf.lookup_of_walk hwalk)
      cases hn'.symm.trans hfile
      exact hwalk'
    | vacant dir name =>
      obtain ⟨htext, hwalks⟩ := walk_eq_ok_iff.mp hwalk
      have hmade := hwalks.file_of_made hg hfile
      rw [← hg.workdir] at hmade
      exact walk_eq_ok_iff.mpr ⟨htext, hmade⟩

/-- A file that was there and was opened could be written. -/
theorem writable_of_openEmpty (hwf : t.WellFormed) {t' : FileTree} {p : Path} {asked m : Mode}
    {content : Bytes} (h : t.openEmpty p asked = (.ok loc, t'))
    (hfile : t.lookup loc = some (.file m content)) : (Node.file m []).writable = true := by
  rcases openEmpty_cases hwf p asked with ⟨f, heq⟩ | ⟨spot, m', -, hwalk, -, heq⟩
  · rw [h] at heq; cases heq
  · rw [h] at heq
    cases heq
    cases spot with
    | node loc n =>
      cases (hwf.lookup_of_walk hwalk).symm.trans hfile
      rw [openEmpty_of_file hwalk] at h
      split at h
      · assumption
      · cases h
    | vacant dir name =>
      rw [Spot.loc, (walk_eq_ok_iff.mp hwalk).2.vacant.1] at hfile
      cases hfile

/-- Filling a file sets its content. -/
theorem fill_eq {m : Mode} {content : Bytes} (h : t.lookup loc = some (.file m content))
    (bytes : Bytes) : t.fill loc bytes = t.set loc (.file m bytes) := by
  simp [fill, h]

/-- Changing the mode of a file sets its mode. -/
theorem changeMode_eq {m : Mode} {content : Bytes} (h : t.lookup loc = some (.file m content))
    (m' : Mode) : t.changeMode loc m' = t.set loc (.file m' content) := by
  simp [changeMode, h]

/-- A file that was opened, filled and given its mode: that is what is there in the end, and
nothing else has changed. -/
theorem Fits.written {m : Mode} (h : t.Fits loc (.file m [])) (hwf : t.WellFormed)
    (content : Bytes) (m' : Mode) :
    (((t.set loc (.file m [])).fill loc content).changeMode loc m').WellFormed ∧
    t.GrowsInto (((t.set loc (.file m [])).fill loc content).changeMode loc m') ∧
    (((t.set loc (.file m [])).fill loc content).changeMode loc m').lookup loc =
      some (.file m' content) ∧
    ∀ other, other ≠ loc →
      (((t.set loc (.file m [])).fill loc content).changeMode loc m').lookup other =
        t.lookup other := by
  have hfilled : (t.set loc _).Fits loc (.file m content) := h.again
  have hchanged : ((t.set loc _).set loc _).Fits loc (.file m' content) := hfilled.again
  rw [fill_eq h.lookup_set_self, changeMode_eq hfilled.lookup_set_self]
  refine ⟨hchanged.wellFormed (hfilled.wellFormed (h.wellFormed hwf)),
    (h.growsInto.trans hfilled.growsInto).trans hchanged.growsInto, hchanged.lookup_set_self,
    fun other hne => ?_⟩
  rw [hchanged.lookup_set_ne hne, hfilled.lookup_set_ne hne, h.lookup_set_ne hne]

end ImageBuild.FileTree
