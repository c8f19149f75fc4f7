import ImageBuild.Proofs.Tree.Inside

/-!
# `ImageBuild.Proofs.Tree.Culprit`: who is to blame for an escape

A `..` that leads above the root stands in the path itself or in the target of a link that was
followed on the way, and the fault says in which. The resolution keeps the steps of all these
texts in one list and marks each `..` with its origin. Here the texts are kept apart: `Reaches`
reads them one inside the other, and a link's target is read to its end before the text that the
link was met in is read on (`Passage`). What stands in a text can be seen there without any mark.

The list is what is left of the texts, one after the other (`Moves.reaches`), and what is known of
each text is an invariant of the reading (`Reaches.isPassage`): it was read up to some place, and
if it is a target, then of a link below the root to which directories alone lead down
(`IsLinkBelow`).

* `joinWithin_blames`: the fault names the text in which the `..` stands, and a link that is named
  is one with that target.
-/

set_option autoImplicit false

namespace ImageBuild.FileTree

variable {t : FileTree} {root entry link target : Path} {D loc : Location} {names : List Name}
  {name : Name}
  {steps links : Nat}

/-! ### Links below a root -/

/-- The path leads to a link with this target, which is below the root. From the directory of the
root the way down to it leads over directories alone. -/
def IsLinkBelow (t : FileTree) (root link target : Path) : Prop :=
  ∃ D names name, t.directoryAt? root = some D ∧ (∀ n ∈ names ++ [name], IsName n) ∧
    link = root.join (.ofNames (names ++ [name])) ∧ t.Descends D names ∧
    t.lookup (D ++ names ++ [name]) = some (.link target)

/-- A walk that ends at a link comes down to it over directories alone, if no other link is on the
way. -/
theorem Walks.descends_of_clear {k : Nat} (hnames : ∀ n ∈ names ++ [name], IsName n)
    (hclear : t.Clear D names)
    (h : t.Walks false k D (names ++ [name]) (.node loc (.link target))) :
    t.Descends D names ∧ t.lookup (D ++ names ++ [name]) = some (.link target) := by
  induction names generalizing D with
  | nil =>
    have hname := hnames name (by simp)
    refine ⟨trivial, ?_⟩
    rw [List.append_nil]
    cases h with
    | stay hs => exact absurd hname.isStep hs.not_isStep
    | up => exact absurd rfl hname.ne_dotDot
    | down _ _ hl hrest => cases hrest.unique (.here_of_lookup hl)
    | link _ _ _ hmore => simp at hmore
    | endLink _ _ hl => exact hl
  | cons n rest ih =>
    have hn := hnames n (by simp)
    -- Another name follows, so the walk goes on from the place of this one.
    generalize hseg : n :: rest ++ [name] = segments at h
    generalize hspot : Spot.node loc (.link target) = spot at h
    cases h with
    | here => cases hseg
    | stay hs => cases hseg; exact absurd hn.isStep hs.not_isStep
    | up => cases hseg; exact absurd rfl hn.ne_dotDot
    | @down _ _ _ _ _ m hs hlooked hl hw =>
      cases hseg
      cases hspot
      obtain ⟨hdescends, hlink⟩ := ih (fun m hm => hnames m (List.mem_cons_of_mem _ hm))
        (hclear hs hlooked.length_le).2 hw
      exact ⟨⟨hs, hlooked, ⟨m, hl⟩, hdescends⟩, by rwa [List.append_cons D n rest]⟩
    | link hs hlooked hl => cases hseg; exact absurd hl ((hclear hs hlooked.length_le).1 _)
    | endLink => simp at hseg
    | endFile | endVacant => cases hspot

/-- A link that is seen behind checked names is below the root. -/
theorem Checked.isLinkBelow (h : t.Checked root names) (hname : IsName name)
    (hlink : t.linkTarget? (candidate root names name) = some target) :
    t.IsLinkBelow root (candidate root names name) target := by
  have hall : ∀ n ∈ names ++ [name], IsName n :=
    List.forall_mem_append.mpr ⟨h.isName, List.forall_mem_singleton.mpr hname⟩
  rw [candidate_eq h.isName hname] at hlink ⊢
  obtain ⟨loc, hwalk⟩ := exists_walk_of_linkTarget? hlink
  obtain ⟨htext, hwalks⟩ := (walk_join_eq_ok_iff hall (by simp)).mp hwalk
  obtain ⟨k, D, harr, hbelow⟩ := hwalks.arrives (by simp)
  have hclear : t.Clear D names := by
    by_cases hne : names = []
    · subst hne; trivial
    · exact h.clear (checkText_of_longer htext (Path.isEmpty_join h.isName hne root)
        (Path.bytes_join_prefix h.isName (List.forall_mem_singleton.mpr hname) root)) harr
  obtain ⟨hdescends, hl⟩ := hbelow.descends_of_clear hall hclear
  have hdir := hbelow.directory_of_names hall (by simp)
  exact ⟨D, names, name, directoryAt?_eq_some_iff.mpr ⟨⟨k, harr⟩, hdir⟩, hall, rfl, hdescends, hl⟩

/-! ### Texts inside texts -/

/-- What is left to be read of a text: of the target of a link, or of the path itself. -/
structure Passage where
  /-- The link with its target, if the text is one. -/
  source : Option (Path × Path)
  left : List Component

/-- The whole text. -/
def Passage.text (entry : Path) (p : Passage) : Path :=
  match p.source with
  | some (_, target) => target
  | none => entry

/-- The steps that are left to be made. -/
def Passage.parts (p : Passage) : List PendingPart :=
  p.left.flatMap (PendingPart.ofComponent p.source)

/-- The reading of a path below a root comes to the place that the names spell, with these
passages left to be read, the innermost first. A link that is met is read in place of its name,
and then the text that it was met in goes on. -/
inductive Reaches (t : FileTree) (root entry : Path) : List Name → List Passage → Prop
  | start : Reaches t root entry [] [⟨none, entry.components⟩]
  | finish {names : List Name} {source : Option (Path × Path)} {outer : List Passage} :
    Reaches t root entry names (⟨source, []⟩ :: outer) → Reaches t root entry names outer
  | stay {names : List Name} {source : Option (Path × Path)} {c : Component}
    {left : List Component}
    {outer : List Passage} : c = .here ∨ c = .root →
    Reaches t root entry names (⟨source, c :: left⟩ :: outer) →
    Reaches t root entry names (⟨source, left⟩ :: outer)
  | up {names : List Name} {source : Option (Path × Path)} {left : List Component}
    {outer : List Passage} :
    names ≠ [] → Reaches t root entry names (⟨source, .parent :: left⟩ :: outer) →
    Reaches t root entry names.dropLast (⟨source, left⟩ :: outer)
  | down {names : List Name} {name : Name} {source : Option (Path × Path)} {left : List Component}
    {outer : List Passage} : t.linkTarget? (candidate root names name) = none →
    Reaches t root entry names (⟨source, .normal name :: left⟩ :: outer) →
    Reaches t root entry (names ++ [name]) (⟨source, left⟩ :: outer)
  | follow {names : List Name} {name : Name} {target : Path} {source : Option (Path × Path)}
    {left : List Component} {outer : List Passage} :
    t.linkTarget? (candidate root names name) = some target → target.isAbsolute = false →
    Reaches t root entry names (⟨source, .normal name :: left⟩ :: outer) →
    Reaches t root entry names
      (⟨some (candidate root names name, target), target.components⟩ :: ⟨source, left⟩ :: outer)

/-- The component that asks for a step, in the text that it stands in. -/
theorem Reaches.next {stack : List Passage} {part : PendingPart} {rest : List PendingPart}
    (h : t.Reaches root entry names stack) (hparts : stack.flatMap Passage.parts = part :: rest) :
    ∃ source c left outer, t.Reaches root entry names (⟨source, c :: left⟩ :: outer) ∧
      PendingPart.ofComponent source c = [part] ∧
      (⟨source, left⟩ :: outer : List Passage).flatMap Passage.parts = rest := by
  -- Texts that are read to their end come first, and components that ask for no step.
  induction stack with
  | nil => cases hparts
  | cons p outer ihOuter =>
    obtain ⟨source, left⟩ := p
    induction left with
    | nil => exact ihOuter h.finish hparts
    | cons c left ihLeft =>
      cases c with
      | root => exact ihLeft (.stay (Or.inr rfl) h) hparts
      | here => exact ihLeft (.stay (Or.inl rfl) h) hparts
      | parent =>
        cases hparts
        exact ⟨source, .parent, left, outer, h, rfl, rfl⟩
      | normal n =>
        cases hparts
        exact ⟨source, .normal n, left, outer, h, rfl, rfl⟩

/-- A `..` that is pending stands in the text of its origin. -/
theorem Reaches.next_up {stack : List Passage} {origin : Option (Path × Path)}
    {rest : List PendingPart} (h : t.Reaches root entry names stack)
    (hparts : stack.flatMap Passage.parts = .up origin :: rest) :
    ∃ left outer, t.Reaches root entry names (⟨origin, .parent :: left⟩ :: outer) ∧
      (⟨origin, left⟩ :: outer : List Passage).flatMap Passage.parts = rest := by
  obtain ⟨source, c, left, outer, hreaches, hpart, hrest⟩ := h.next hparts
  cases c with
  | root | here | normal => cases hpart
  | parent => cases hpart; exact ⟨left, outer, hreaches, hrest⟩

/-- A name that is pending stands in some text. -/
theorem Reaches.next_down {stack : List Passage} {rest : List PendingPart}
    (h : t.Reaches root entry names stack)
    (hparts : stack.flatMap Passage.parts = .down name :: rest) :
    ∃ source left outer, t.Reaches root entry names (⟨source, .normal name :: left⟩ :: outer) ∧
      (⟨source, left⟩ :: outer : List Passage).flatMap Passage.parts = rest := by
  obtain ⟨source, c, left, outer, hreaches, hpart, hrest⟩ := h.next hparts
  cases c with
  | root | here | parent => cases hpart
  | normal => cases hpart; exact ⟨source, left, outer, hreaches, hrest⟩

/-- The steps of a resolution are those that the texts ask for, one after the other. -/
theorem Moves.reaches {s s' : Standing} {stack : List Passage} (h : t.Moves root steps links s s')
    (hreaches : t.Reaches root entry s.resolved stack)
    (hparts : stack.flatMap Passage.parts = s.pending) :
    ∃ stack', t.Reaches root entry s'.resolved stack' ∧
      stack'.flatMap Passage.parts = s'.pending := by
  induction h generalizing stack with
  | here => exact ⟨stack, hreaches, hparts⟩
  | up hne _ ih =>
    obtain ⟨left, outer, hnext, hrest⟩ := hreaches.next_up hparts
    exact ih (.up hne hnext) hrest
  | down hlink _ ih =>
    obtain ⟨source, left, outer, hnext, hrest⟩ := hreaches.next_down hparts
    exact ih (.down hlink hnext) hrest
  | follow hlink habs _ ih =>
    obtain ⟨source, left, outer, hnext, hrest⟩ := hreaches.next_down hparts
    exact ih (.follow hlink habs hnext) (by rw [List.flatMap_cons, hrest]; rfl)

/-! ### What is known of each text -/

/-- The passage is the end of its text. A text that is a target is the relative target of a link
below the root. -/
structure IsPassage (t : FileTree) (root entry : Path) (p : Passage) : Prop where
  suffix : p.left <:+ (p.text entry).components
  hasNul : (p.text entry).hasNul = false
  link : ∀ link target, p.source = some (link, target) →
    t.IsLinkBelow root link target ∧ target.isAbsolute = false

namespace IsPassage

variable {source : Option (Path × Path)} {c : Component} {left : List Component}

/-- A component further on it is still a passage of the same text. -/
theorem tail (h : t.IsPassage root entry ⟨source, c :: left⟩) :
    t.IsPassage root entry ⟨source, left⟩ where
  suffix := (List.suffix_cons c left).trans h.suffix
  hasNul := h.hasNul
  link := h.link

/-- A name in a text is a plain name. -/
theorem isName (h : t.IsPassage root entry ⟨source, .normal name :: left⟩) :
    IsName name ∧ 0 ∉ name := by
  have hmem := h.suffix.mem List.mem_cons_self
  exact ⟨Path.isName_of_mem_components hmem, Path.nul_notMem_of_mem_components h.hasNul hmem⟩

end IsPassage

/-- The invariant of the reading: the names that it has come to are checked, and what is left to
be read are passages. -/
theorem Reaches.isPassage (hwf : t.WellFormed) (hnul : entry.hasNul = false)
    {stack : List Passage} (h : t.Reaches root entry names stack) :
    t.Checked root names ∧ ∀ p ∈ stack, t.IsPassage root entry p := by
  induction h with
  | start =>
    refine ⟨.nil t root, List.forall_mem_singleton.mpr ⟨List.suffix_rfl, hnul, ?_⟩⟩
    intro link target hsource
    cases hsource
  | finish _ ih => exact ⟨ih.1, (List.forall_mem_cons.mp ih.2).2⟩
  | stay _ _ ih =>
    obtain ⟨hchecked, hall⟩ := ih
    obtain ⟨hfirst, houter⟩ := List.forall_mem_cons.mp hall
    exact ⟨hchecked, List.forall_mem_cons.mpr ⟨hfirst.tail, houter⟩⟩
  | up _ _ ih =>
    obtain ⟨hchecked, hall⟩ := ih
    obtain ⟨hfirst, houter⟩ := List.forall_mem_cons.mp hall
    exact ⟨hchecked.dropLast, List.forall_mem_cons.mpr ⟨hfirst.tail, houter⟩⟩
  | down hlink _ ih =>
    obtain ⟨hchecked, hall⟩ := ih
    obtain ⟨hfirst, houter⟩ := List.forall_mem_cons.mp hall
    obtain ⟨hname, hnul⟩ := hfirst.isName
    exact ⟨hchecked.concat hname hnul hlink, List.forall_mem_cons.mpr ⟨hfirst.tail, houter⟩⟩
  | @follow names name target _ _ _ hlink habs _ ih =>
    obtain ⟨hchecked, hall⟩ := ih
    obtain ⟨hfirst, houter⟩ := List.forall_mem_cons.mp hall
    have hbelow := hchecked.isLinkBelow hfirst.isName.1 hlink
    have htarget : target.hasNul = false := by
      obtain ⟨loc, hwalk⟩ := exists_walk_of_linkTarget? hlink
      exact hwf.target (hwf.lookup_of_walk hwalk)
    -- A link that is followed puts its target on top of the passages.
    refine ⟨hchecked, List.forall_mem_cons.mpr ⟨⟨List.suffix_rfl, htarget, ?_⟩,
      List.forall_mem_cons.mpr ⟨hfirst.tail, houter⟩⟩⟩
    rintro _ _ ⟨⟩
    exact ⟨hbelow, habs⟩

/-! ### Faults -/

/-- A path that is refused is absolute, or it holds a NUL byte, or the reading comes to where the
refusal comes from. -/
theorem exists_reaches_of_error {fault : EscapeFault}
    (h : t.joinWithin root entry = .error fault) :
    (entry.hasNul = true ∧ fault = .nul) ∨
      (entry.hasNul = false ∧ entry.isAbsolute = true ∧ fault = .pathEscape entry root) ∨
      entry.hasNul = false ∧ ∃ left s stack, t.Answers root entry left s (.error fault) ∧
        t.Reaches root entry s.resolved stack ∧ stack.flatMap Passage.parts = s.pending := by
  cases hnul : entry.hasNul with
  | true =>
    simp only [joinWithin, resolveWithin, hnul, if_true, Except.map, Except.error.injEq] at h
    exact Or.inl ⟨rfl, h.symm⟩
  | false =>
    cases habs : entry.isAbsolute with
    | true =>
      simp only [joinWithin, resolveWithin, hnul, habs, if_true, Bool.false_eq_true, if_false,
        Except.map, Except.error.injEq] at h
      exact Or.inr (Or.inl ⟨rfl, rfl, h.symm⟩)
    | false =>
      rw [joinWithin_of_relative hnul habs] at h
      obtain ⟨steps, links, s, -, hmoves, hanswers⟩ :=
        exists_answers t root entry hopLimit [] (PendingPart.ofPath none entry)
      cases hanswer : t.resolve root entry hopLimit [] (PendingPart.ofPath none entry) with
      | ok names => rw [hanswer] at h; cases h
      | error fault' =>
        rw [hanswer] at h hanswers
        cases h
        have hstart : t.Reaches root entry [] [⟨none, entry.components⟩] := .start
        obtain ⟨stack, hreaches, hparts⟩ := hmoves.reaches hstart (List.flatMap_singleton ..)
        exact Or.inr (Or.inr ⟨rfl, _, s, stack, hanswers, hreaches, hparts⟩)

/-- A fault names who is to blame for it.

* If it is a link, that is a link below the root with that target, to which directories alone lead
  down, and the reading comes to the root with a `..` next that stands in this target.
* If it is the path, that is absolute, or the reading comes to the root with a `..` next that
  stands in the path itself, however many links were followed before.
* If it is an absolute target, that is the target of such a link, and the reading comes to the
  link's name. -/
theorem joinWithin_blames (hwf : t.WellFormed) (root entry : Path) :
    (∀ link target, t.joinWithin root entry = .error (.linkEscape link target) →
      t.IsLinkBelow root link target ∧ target.isAbsolute = false ∧
        ∃ read left outer, target.components = read ++ .parent :: left ∧
          t.Reaches root entry [] (⟨some (link, target), .parent :: left⟩ :: outer)) ∧
    (∀ path base, t.joinWithin root entry = .error (.pathEscape path base) →
      path = entry ∧ base = root ∧ (entry.isAbsolute = true ∨
        ∃ read left outer, entry.components = read ++ .parent :: left ∧
          t.Reaches root entry [] (⟨none, .parent :: left⟩ :: outer))) ∧
    (∀ target link, t.joinWithin root entry = .error (.absoluteTarget target link) →
      t.IsLinkBelow root link target ∧ target.isAbsolute = true ∧
        ∃ names name source left outer, link = candidate root names name ∧
          t.Reaches root entry names (⟨source, .normal name :: left⟩ :: outer)) := by
  -- In each part the fault singles out the one way in which the reading can have ended, and the
  -- passage at its front is what is to blame.
  refine ⟨fun link target h => ?_, fun path base h => ?_, fun target link h => ?_⟩
  · obtain ⟨-, hfault⟩ | ⟨-, -, hfault⟩ | ⟨hnul, _, s, stack, hanswers, hreaches, hparts⟩ :=
      exists_reaches_of_error h
    · cases hfault
    · cases hfault
    · cases hanswers with
      | linkClimbs =>
        obtain ⟨left, outer, hup, -⟩ := hreaches.next_up hparts
        have hpassage := (hup.isPassage hwf hnul).2 _ List.mem_cons_self
        obtain ⟨hbelow, habs⟩ := hpassage.link link target rfl
        obtain ⟨read, hread⟩ := hpassage.suffix
        exact ⟨hbelow, habs, read, left, outer, hread.symm, hup⟩
  · obtain ⟨-, hfault⟩ | ⟨-, habs, hfault⟩ | ⟨hnul, _, s, stack, hanswers, hreaches, hparts⟩ :=
      exists_reaches_of_error h
    · cases hfault
    · cases hfault
      exact ⟨rfl, rfl, Or.inl habs⟩
    · cases hanswers with
      | climbs =>
        obtain ⟨left, outer, hup, -⟩ := hreaches.next_up hparts
        obtain ⟨read, hread⟩ := ((hup.isPassage hwf hnul).2 _ List.mem_cons_self).suffix
        exact ⟨rfl, rfl, Or.inr ⟨read, left, outer, hread.symm, hup⟩⟩
  · obtain ⟨-, hfault⟩ | ⟨-, -, hfault⟩ | ⟨hnul, _, s, stack, hanswers, hreaches, hparts⟩ :=
      exists_reaches_of_error h
    · cases hfault
    · cases hfault
    · cases hanswers with
      | absolute _ hlink habs =>
        obtain ⟨source, left, outer, hdown, -⟩ := hreaches.next_down hparts
        obtain ⟨hchecked, hall⟩ := hdown.isPassage hwf hnul
        have hname := (hall _ List.mem_cons_self).isName.1
        exact ⟨hchecked.isLinkBelow hname hlink, habs, _, _, source, left, outer, rfl, hdown⟩

/-- A tree with a directory `a`, in it a directory `r`, a link `l` to `r` and a link `e` to `/`,
and in `r` a link `u` to `../..`. -/
def tangledTree : FileTree where
  nodes := [([[0x61]], .directory 0o755), ([[0x61], [0x72]], .directory 0o755),
    ([[0x61], [0x6C]], .link (.ofString "r")), ([[0x61], [0x65]], .link (.ofString "/")),
    ([[0x61], [0x72], [0x75]], .link (.ofString "../.."))]
  workdir := []

/-- Below `a`, the link `r/u` is to blame for `l/u/x`, the path itself for `l/../../x`, and the
link `e` for `l/../e`. -/
theorem joinWithin_tangledTree_blames :
    tangledTree.joinWithin (.ofString "a") (.ofString "l/u/x") =
      .error (.linkEscape (.ofString "a/r/u") (.ofString "../..")) ∧
    (∃ read left outer, (Path.ofString "../..").components = read ++ .parent :: left ∧
      tangledTree.Reaches (.ofString "a") (.ofString "l/u/x") []
        (⟨some (.ofString "a/r/u", .ofString "../.."), .parent :: left⟩ :: outer)) ∧
    tangledTree.joinWithin (.ofString "a") (.ofString "l/../../x") =
      .error (.pathEscape (.ofString "l/../../x") (.ofString "a")) ∧
    (∃ read left outer, (Path.ofString "l/../../x").components = read ++ .parent :: left ∧
      tangledTree.Reaches (.ofString "a") (.ofString "l/../../x") []
      (⟨none, .parent :: left⟩ :: outer)) ∧
    tangledTree.joinWithin (.ofString "a") (.ofString "l/../e") =
      .error (.absoluteTarget (.ofString "/") (.ofString "a/e")) ∧
    tangledTree.IsLinkBelow (.ofString "a") (.ofString "a/e") (.ofString "/") := by
  have hwf : tangledTree.WellFormed := by decide
  have hlink : tangledTree.joinWithin (.ofString "a") (.ofString "l/u/x") =
      .error (.linkEscape (.ofString "a/r/u") (.ofString "../..")) := by cbv
  have hpath : tangledTree.joinWithin (.ofString "a") (.ofString "l/../../x") =
      .error (.pathEscape (.ofString "l/../../x") (.ofString "a")) := by cbv
  have habsolute : tangledTree.joinWithin (.ofString "a") (.ofString "l/../e") =
      .error (.absoluteTarget (.ofString "/") (.ofString "a/e")) := by cbv
  have hblames := joinWithin_blames hwf (.ofString "a") (.ofString "l/../../x")
  exact ⟨hlink, ((joinWithin_blames hwf _ _).1 _ _ hlink).2.2, hpath,
    (hblames.2.1 _ _ hpath).2.2.resolve_left (by decide), habsolute,
    ((joinWithin_blames hwf _ _).2.2 _ _ habsolute).1⟩

end ImageBuild.FileTree
