import ImageBuild.Proofs.Archive.Confinement
import ImageBuild.Proofs.Archive.Opening
import ImageBuild.Proofs.Archive.Packing
import ImageBuild.Proofs.Tree.Making
import Mathlib.Data.List.Nodup

/-!
# `ImageBuild.Proofs.Archive.RoundTrip`: unpacking what was packed

Directories and files that are packed into a tar stream, in any order and with or without the
directories around them, are there again after the stream is unpacked into an empty directory:
`extract_roundTrip`. Nothing else is there but the directories that the paths need.

The reading is done with when a stream is known to be packed (`Packs.listing_eq`). What remains is
a fold of entries over the tree, and its invariant `Unpacked` says what the tree holds after the
first items: outside of the directory what it held before, and inside just these items and the
directories on the way to them. One entry keeps it (`Unpacked.putEntry_eq`), and so do all of them
(`Unpacked.unpack_eq`).
-/

set_option autoImplicit false

namespace ImageBuild.Archive

open FileTree

variable {t t₀ : FileTree} {destination : Path} {D : Location} {m : Mode} {names : List Name}
  {n : Node}
  {items : List (List Name × Node)}

/-! ### What is to be there -/

/-- The items are a tree: each has a place of its own, and nothing is below a file. -/
structure IsTree (items : List (List Name × Node)) : Prop where
  named : ∀ item ∈ items, item.1 ≠ []
  nodup : (items.map Prod.fst).Nodup
  leaf : ∀ file ∈ items, file.2.isFile = true → ∀ item ∈ items, file.1 <+: item.1 →
    item.1 = file.1

/-- The node is at the place once the items are unpacked: a file that is one of them, or a
directory that is one of them or that one of them is in. Directories have the same mode. -/
def IsUnpacked (items : List (List Name × Node)) (mode : Mode) (names : List Name) (n : Node) :
    Prop :=
  (n.isFile = true ∧ (names, n) ∈ items) ∨
    n = .directory mode ∧ ∃ item ∈ items, names <+: item.1 ∧
      (item.1 = names → item.2.isDirectory = true)

/-- What a run reports after it has put the items, too. -/
def reportAfter (report : Report) (items : List (List Name × Node)) : Report where
  directories := report.directories + items.countP fun item => item.2.isDirectory
  files := report.files + items.countP fun item => item.2.isFile
  skipped := report.skipped
  bytesWritten := report.bytesWritten + (items.map fun item => item.2.content.length).sum

/-- A report counts the items one by one. -/
theorem reportAfter_cons (report : Report) (item : List Name × Node)
    (items : List (List Name × Node)) :
    reportAfter report (item :: items) = reportAfter (reportAfter report [item]) items := by
  unfold reportAfter
  simp only [List.countP_cons, List.countP_nil, List.map_cons, List.map_nil, List.sum_cons,
    List.sum_nil, Report.mk.injEq, true_and]
  omega

/-- No items unpack to nothing. -/
theorem not_isUnpacked_nil {mode : Mode} : ¬ IsUnpacked [] mode names n := by
  rintro (⟨-, hmem⟩ | ⟨-, item, hmem, -⟩) <;> cases hmem

/-- The first items of a tree are a tree. -/
theorem IsTree.of_append {further : List (List Name × Node)} (h : IsTree (items ++ further)) :
    IsTree items where
  named item hitem := h.named item (List.mem_append_left _ hitem)
  nodup := by
    have hnodup := h.nodup
    rw [List.map_append] at hnodup
    exact hnodup.of_append_left
  leaf file hfile hisFile item hitem :=
    h.leaf file (List.mem_append_left _ hfile) hisFile item (List.mem_append_left _ hitem)

/-- A further item changes nothing but what is on the way to it. -/
theorem isUnpacked_concat_apart {mode : Mode} {item : List Name × Node}
    (h : ¬ names <+: item.1) :
    IsUnpacked (items ++ [item]) mode names n ↔ IsUnpacked items mode names n := by
  unfold IsUnpacked
  simp only [List.mem_append, List.mem_singleton]
  constructor
  · rintro (⟨hfile, hmem | rfl⟩ | ⟨hn, other, hmem | rfl, hother⟩)
    · exact Or.inl ⟨hfile, hmem⟩
    · exact absurd List.prefix_rfl h
    · exact Or.inr ⟨hn, other, hmem, hother⟩
    · exact absurd hother.1 h
  · rintro (⟨hfile, hmem⟩ | ⟨hn, other, hmem, hother⟩)
    · exact Or.inl ⟨hfile, Or.inl hmem⟩
    · exact Or.inr ⟨hn, other, Or.inl hmem, hother⟩

/-- On the way to a further item there are directories. -/
theorem isUnpacked_concat_along {mode : Mode} {item : List Name × Node}
    (htree : IsTree (items ++ [item])) (h : names <+: item.1)
    (hdir : item.1 = names → item.2.isDirectory = true) :
    IsUnpacked (items ++ [item]) mode names n ↔ n = .directory mode := by
  constructor
  · rintro (⟨hfile, hmem⟩ | ⟨hn, -⟩)
    · -- A file on the way would be the item itself, and that is a directory then.
      have hself := htree.leaf _ hmem hfile item (by simp) h
      have hitem : (names, n) = item := by
        exact List.inj_on_of_nodup_map htree.nodup hmem (by simp) hself.symm
      subst hitem
      have hdirectory := hdir rfl
      cases n <;> simp_all [Node.isFile, Node.isDirectory]
    · exact hn
  · rintro rfl
    exact Or.inr ⟨rfl, item, by simp, h, hdir⟩

/-- What is there without a further item is there with it. -/
theorem IsUnpacked.concat {mode : Mode} (h : IsUnpacked items mode names n)
    (item : List Name × Node) : IsUnpacked (items ++ [item]) mode names n :=
  h.imp (And.imp_right (List.mem_append_left _))
    (And.imp_right fun ⟨other, hmem, hother⟩ => ⟨other, List.mem_append_left _ hmem, hother⟩)

/-- In the place of a file is the file. -/
theorem isUnpacked_concat_self {mode : Mode} {item : List Name × Node}
    (htree : IsTree (items ++ [item])) (hfile : item.2.isFile = true) :
    IsUnpacked (items ++ [item]) mode item.1 n ↔ n = item.2 := by
  have hitem : item ∈ items ++ [item] := by simp
  constructor
  · rintro (⟨-, hmem⟩ | ⟨-, other, hmem, hahead, hdir⟩)
    · have hself := List.inj_on_of_nodup_map htree.nodup hmem hitem rfl
      exact congrArg Prod.snd hself
    · -- Nothing is below a file, and no directory is in its place.
      have hother := htree.leaf item hitem hfile other hmem hahead
      obtain rfl := List.inj_on_of_nodup_map htree.nodup hmem hitem hother
      have hdirectory := hdir rfl
      cases hn : other.2 <;> simp_all [Node.isFile, Node.isDirectory]
  · rintro rfl
    exact Or.inl ⟨hfile, hitem⟩

/-! ### Names of entries -/

namespace Spells

variable {text : Bytes} (h : Spells text names)
include h

/-- The names of an item are components of its path. -/
theorem mem_components {name : Name} (hname : name ∈ names) :
    .normal name ∈ (Path.mk text).components := by
  have hmem : Component.normal name ∈ (Path.mk text).components.filter (· != .here) := by
    rw [show _ = _ from h]
    exact List.mem_map_of_mem hname
  exact List.mem_of_mem_filter hmem

/-- They are names. -/
theorem isName {name : Name} (hname : name ∈ names) : IsName name :=
  Path.isName_of_mem_components (h.mem_components hname)

/-- The steps to be made below the root are the names. -/
theorem ofPath_eq : PendingPart.ofPath none ⟨text⟩ = names.map .down := by
  have hkept : ∀ l : List Component, l.flatMap (PendingPart.ofComponent none) =
      (l.filter (· != .here)).flatMap (PendingPart.ofComponent none) := by
    intro l
    induction l with
    | nil => rfl
    | cons c rest ih => cases c <;> simp [PendingPart.ofComponent, ih]
  unfold PendingPart.ofPath
  rw [hkept, show _ = _ from h, List.flatMap_map]
  exact List.map_eq_flatMap.symm

/-- The path of an item is relative. -/
theorem isAbsolute_eq : (Path.mk text).isAbsolute = false := by
  cases habs : (Path.mk text).isAbsolute with
  | false => rfl
  | true =>
    have hroot : Component.root ∈ (Path.mk text).components.filter (· != .here) := by
      refine List.mem_filter.mpr ⟨?_, rfl⟩
      unfold Path.components
      rw [habs]
      simp
    rw [show _ = _ from h] at hroot
    simp at hroot

/-- Below a directory without links, the joined path has the names that are spelled. -/
theorem joinWithin_eq (hnul : 0 ∉ text) (hfree : t.LinkFree D)
    (hD : t.directoryAt? destination = some D) :
    t.joinWithin destination ⟨text⟩ = .ok (destination.join (.ofNames names)) := by
  have hhasNul : (Path.mk text).hasNul = false := by simpa [Path.hasNul] using hnul
  have hchecked : t.Checked destination ([] ++ names) :=
    .of_linkFree hfree hD (fun name hname => h.isName hname) fun name hname =>
      Path.nul_notMem_of_mem_components hhasNul (h.mem_components hname)
  unfold joinWithin resolveWithin
  rw [hhasNul, h.isAbsolute_eq, h.ofPath_eq]
  simp only [Bool.false_eq_true, if_false]
  rw [hchecked.resolve_eq]
  rfl

/-- Short names can be looked up below a destination that leaves room for them. -/
theorem areWalkable (hnul : 0 ∉ text) (hlength : text.length ≤ 100)
    (hdestination : destination.hasNul = false)
    (hroom : (destination.join (.ofNames names)).bytes.length ≤ pathLimit) :
    AreWalkable destination names where
  isName name hname := h.isName hname
  length_le name hname := by
    have hname := Path.length_le_of_mem_components (h.mem_components hname)
    unfold nameLimit
    simp only at hname
    omega
  text hne := by
    have hhasNul : (Path.mk text).hasNul = false := by simpa [Path.hasNul] using hnul
    refine checkText_eq_ok_iff.mpr ⟨Path.hasNul_join hdestination (Path.hasNul_ofNames ?_),
      Path.isEmpty_join (fun name hname => h.isName hname) hne destination, hroom⟩
    exact fun name hname => Path.nul_notMem_of_mem_components hhasNul (h.mem_components hname)

end Spells

/-! ### One item -/

/-- The tree is the one before with the items unpacked into the directory `D`. -/
structure Unpacked (t₀ : FileTree) (D : Location) (m : Mode) (items : List (List Name × Node))
    (t : FileTree) : Prop where
  wellFormed : t.WellFormed
  grows : t₀.GrowsInto t
  outside : ∀ loc : Location, ¬ IsInside D loc → t.lookup loc = t₀.lookup loc
  inside : ∀ (names : List Name) (n : Node), names ≠ [] →
    (t.lookup (D ++ names) = some n ↔ IsUnpacked items (madeMode m) names n)

/-- Making the directory for an item, or for what is above it. -/
theorem ensureDirectory_eq (hreceives : t.Receives destination D m) (hwf : t.WellFormed)
    (hnames : AreWalkable destination names) (hway : t.IsOpenWay D m names) (hne : names ≠ []) :
    ∃ t', ensureDirectory t (destination.join (.ofNames names)) = (.ok (), t') ∧
      MadeAlong D m names t t' := by
  obtain ⟨t', hcreate, hmade⟩ := hreceives.createAll_eq hwf hnames hway hne
  cases hexists : t.pathExists (destination.join (.ofNames names)) with
  | true =>
    refine ⟨t, ensureDirectory_of_pathExists hexists, .refl hwf hway ?_⟩
    obtain ⟨front, name, rfl⟩ : ∃ front name, names = front ++ [name] :=
      ⟨_, _, (List.dropLast_concat_getLast hne).symm⟩
    refine (hway _ [] (by simp) hne).resolve_left fun hvacant => ?_
    rw [hreceives.pathExists_of_vacant hwf hnames hway.of_append hvacant] at hexists
    cases hexists
  | false => exact ⟨t', ensureDirectory_eq_ok_iff.mpr (Or.inr ⟨hexists, hcreate⟩), hmade⟩

/-- The directory above a file is the destination itself, or one that is made. -/
theorem ensureParent_eq (hreceives : t.Receives destination D m) (hwf : t.WellFormed)
    {front : List Name} {name : Name} (hnames : AreWalkable destination (front ++ [name]))
    (hway : t.IsOpenWay D m front) :
    ∃ t', ensureParent t (destination.join (.ofNames (front ++ [name]))) = (.ok (), t') ∧
      MadeAlong D m front t t' := by
  have hname := hnames.isName name (by simp)
  unfold ensureParent
  by_cases hfront : front = []
  · subst hfront
    obtain ⟨up, hup, hthere⟩ :=
      isDirectory_parent hreceives.denotes hname (hnames.text (by simp))
    refine ⟨t, ?_, .refl hwf hway (Or.inl rfl)⟩
    rw [List.nil_append, hup]
    -- Above a bare name is the empty path, for which there is nothing to make.
    rcases hthere with rfl | hdir
    · rfl
    · exact ensureDirectory_of_pathExists (pathExists_of_isDirectory hdir)
  · have hup := Path.parent?_join hfront hnames.of_append.isName hname destination
    rw [hup]
    exact ensureDirectory_eq hreceives hwf hnames.of_append hway hfront

/-- Opening a file in a place that is vacant: the directories above it are made first. -/
theorem openTarget_eq (hreceives : t.Receives destination D m) (hwf : t.WellFormed)
    {front : List Name} {name : Name} (hnames : AreWalkable destination (front ++ [name]))
    (hway : t.IsOpenWay D m front) (hvacant : t.lookup (D ++ (front ++ [name])) = none)
    (mode : Mode) :
    ∃ t₁ opened, MadeAlong D m front t t₁ ∧ t₁.Fits (D ++ (front ++ [name])) (.file opened []) ∧
      openTarget t (destination.join (.ofNames (front ++ [name]))) mode =
        (.ok (D ++ (front ++ [name])), t₁.set (D ++ (front ++ [name])) (.file opened [])) := by
  obtain ⟨t₁, hmake, hmade⟩ := ensureParent_eq hreceives hwf hnames hway
  have hthere : t₁.lookup (D ++ (front ++ [name])) = none :=
    (hmade.lookup_concat name).trans hvacant
  have hreceives₁ := hreceives.grow hmade.grows
  have hisMade := hmade.isMade hway
  have hwalk :=
    hreceives₁.walk_eq hmade.wellFormed hnames (hmade.isOpenWay hway) hisMade hthere true
  rw [if_pos rfl] at hwalk
  have hopen := openEmpty_of_vacant hwalk (hreceives₁.canAlter hisMade) mode
  rw [List.append_assoc] at hopen
  have hfits : t₁.Fits (D ++ (front ++ [name])) (.file (mode &&& ~~~umask) []) := by
    rw [← List.append_assoc]
    exact .of_vacant hwalk rfl
  exact ⟨t₁, mode &&& ~~~umask, hmade, hfits, openTarget_eq_ok_iff.mpr ⟨t₁, hmake, hopen⟩⟩

/-- What is below a location is inside of it. -/
theorem isInside_append (D : Location) {names : List Name} (hne : names ≠ []) :
    IsInside D (D ++ names) :=
  ⟨List.prefix_append _ _, by simpa using hne⟩

namespace Unpacked

/-- Into an empty directory nothing has been unpacked yet. -/
theorem refl (hwf : t.WellFormed) (hempty : ∀ name, t.lookup (D ++ [name]) = none) :
    Unpacked t D m [] t where
  wellFormed := hwf
  grows := .refl t
  outside _ _ := rfl
  inside names n hne := by
    refine iff_of_false (fun hn => ?_) not_isUnpacked_nil
    -- What is above it would be there, right below the directory.
    obtain ⟨name, rest, rfl⟩ := List.exists_cons_of_ne_nil hne
    have habove : t.lookup (D ++ [name]) ≠ none := by
      by_cases hrest : rest = []
      · subst hrest
        rw [hn]
        simp
      · rw [List.append_cons] at hn
        obtain ⟨mode, hdir⟩ := hwf.directory_of_lookup hrest hn
        rw [hdir]
        simp
    exact habove (hempty name)

variable (h : Unpacked t₀ D m items t)
include h

/-- There are no links among the items. -/
theorem linkFree (hD : ∃ mode, t.lookup D = some (.directory mode)) : t.LinkFree D := by
  intro below target hlink
  by_cases hne : below = []
  · subst hne
    obtain ⟨mode, hD⟩ := hD
    rw [List.append_nil, hD] at hlink
    cases hlink
  · rcases (h.inside below _ hne).mp hlink with ⟨hfile, -⟩ | ⟨hdir, -⟩
    · cases hfile
    · cases hdir

section
variable {item : List Name × Node} (htree : IsTree (items ++ [item]))
include htree

/-- On the way to a further item there are only directories. -/
theorem isOpenWay {way : List Name} (hway : way <+: item.1)
    (hdir : item.1 = way → item.2.isDirectory = true) : t.IsOpenWay D m way := by
  intro first more heq hne
  have hfirst : first <+: way := ⟨more, heq.symm⟩
  cases hn : t.lookup (D ++ first) with
  | none => exact Or.inl rfl
  | some n =>
    have hunpacked := ((h.inside first n hne).mp hn).concat item
    rw [isUnpacked_concat_along htree (hfirst.trans hway) fun hself => ?_] at hunpacked
    · exact Or.inr (Or.inr (hn.trans (congrArg some hunpacked)))
    · refine hdir (hway.eq_of_length_le ?_).symm
      rw [hself]
      exact hfirst.length_le

/-- Nothing is yet in the place of a further item that is a file. -/
theorem vacant_of_isFile (hfile : item.2.isFile = true) : t.lookup (D ++ item.1) = none := by
  cases hn : t.lookup (D ++ item.1) with
  | none => rfl
  | some n =>
    have hitem : item ∈ items ++ [item] := by simp
    have hunpacked := (h.inside item.1 n (htree.named item hitem)).mp hn
    -- Something among the items is there or below, and that would have to be this one.
    obtain ⟨other, hmem, hahead⟩ : ∃ other ∈ items, item.1 <+: other.1 := by
      rcases hunpacked with ⟨-, hmem⟩ | ⟨-, other, hmem, hahead, -⟩
      · exact ⟨_, hmem, List.prefix_rfl⟩
      · exact ⟨other, hmem, hahead⟩
    have hother := htree.leaf item hitem hfile other (List.mem_append_left _ hmem) hahead
    have hnodup := htree.nodup
    rw [List.map_append, List.nodup_append] at hnodup
    exact absurd hother (hnodup.2.2 other.1 (List.mem_map_of_mem hmem) item.1 (by simp))

/-- With the directories on the way to a further item, the tree has what is on the way, and
elsewhere what it had. -/
theorem lookup_of_madeAlong {way : List Name} {t₁ : FileTree} (hway : way <+: item.1)
    (hdir : item.1 = way → item.2.isDirectory = true) (hmade : MadeAlong D m way t t₁)
    {names : List Name} (hne : names ≠ []) (hat : names <+: way ∨ ¬ names <+: item.1) (n : Node) :
    t₁.lookup (D ++ names) = some n ↔ IsUnpacked (items ++ [item]) (madeMode m) names n := by
  rcases hat with ⟨rest, rfl⟩ | hnot
  · have hopen := h.isOpenWay htree hway hdir
    rw [isUnpacked_concat_along htree ((List.prefix_append _ _).trans hway) fun hself => ?_]
    · have hthere : t₁.lookup (D ++ names) = some (.directory (madeMode m)) := by
        rcases hopen names rest rfl hne with hnone | hthere
        · exact hmade.made names rest rfl hne hnone
        · exact hmade.grows.directory (hthere.resolve_left hne)
      rw [hthere, Option.some.injEq, eq_comm]
    · refine hdir (hway.eq_of_length_le ?_).symm
      rw [hself, List.length_append]
      omega
  · rw [isUnpacked_concat_apart hnot, ← h.inside names n hne,
      hmade.kept _ (Or.inr fun first more heq _ hloc => ?_)]
    obtain rfl := List.append_cancel_left hloc
    exact hnot (List.IsPrefix.trans ⟨more, heq.symm⟩ hway)

end

/-- Directories that are made inside of the directory change nothing outside. -/
theorem outside_of_madeAlong {way : List Name} {t₁ : FileTree} (hmade : MadeAlong D m way t t₁)
    {loc : Location} (hout : ¬ IsInside D loc) : t₁.lookup loc = t₀.lookup loc := by
  rw [← h.outside loc hout]
  refine hmade.kept loc (Or.inr fun first more heq hfirst hloc => hout ?_)
  rw [hloc]
  exact isInside_append D hfirst

/-- With the directories for it, a directory is unpacked. -/
theorem concat_directory {mode : Mode} {t₁ : FileTree}
    (htree : IsTree (items ++ [(names, .directory mode)])) (hmade : MadeAlong D m names t t₁) :
    Unpacked t₀ D m (items ++ [(names, .directory mode)]) t₁ where
  wellFormed := hmade.wellFormed
  grows := h.grows.trans hmade.grows
  outside _ hout := h.outside_of_madeAlong hmade hout
  inside _ n hne := h.lookup_of_madeAlong htree List.prefix_rfl (fun _ => rfl) hmade hne (em _) n

/-- With the directories above it and its content written, a file is unpacked. -/
theorem concat_file {front : List Name} {name : Name} {mode opened : Mode} {content : Bytes}
    {t₁ : FileTree} (htree : IsTree (items ++ [(front ++ [name], .file mode content)]))
    (hmade : MadeAlong D m front t t₁)
    (hfits : t₁.Fits (D ++ (front ++ [name])) (.file opened [])) :
    Unpacked t₀ D m (items ++ [(front ++ [name], .file mode content)])
      (((t₁.set (D ++ (front ++ [name])) (.file opened [])).fill (D ++ (front ++ [name]))
        content).changeMode (D ++ (front ++ [name])) mode) := by
  have hahead : front <+: front ++ [name] := List.prefix_append _ _
  obtain ⟨hwf, hgrows, hself, hothers⟩ := hfits.written hmade.wellFormed content mode
  refine ⟨hwf, h.grows.trans (hmade.grows.trans hgrows), fun loc hout => ?_,
    fun names n hne => ?_⟩
  · rw [hothers loc, h.outside_of_madeAlong hmade hout]
    rintro rfl
    exact hout (isInside_append D (by simp))
  · by_cases hnames : names = front ++ [name]
    · subst hnames
      rw [isUnpacked_concat_self htree rfl, hself, Option.some.injEq, eq_comm]
    · rw [hothers _ (by simpa using hnames)]
      refine h.lookup_of_madeAlong htree hahead (fun heq => absurd heq (by simp)) hmade hne ?_ n
      -- What is on the way to the file, but not the file, is on the way to its directory.
      refine (em (names <+: front ++ [name])).imp_left fun hlead => ?_
      obtain ⟨more, hmore⟩ := hlead
      rcases List.eq_nil_or_concat more with rfl | ⟨rest, last, rfl⟩
      · exact absurd (by simpa using hmore) hnames
      · rw [List.concat_eq_append, ← List.append_assoc] at hmore
        exact ⟨rest, (List.append_inj' hmore rfl).1⟩

/-- One more item. -/
theorem putEntry_eq {item : List Name × Node} (htree : IsTree (items ++ [item]))
    (hreceives : t₀.Receives destination D m) {e : Entry} (hentry : IsEntryOf item e)
    (hnames : AreWalkable destination item.1) (report : Report) :
    ∃ t', putEntry destination t report e = (.ok (reportAfter report [item]), t') ∧
      Unpacked t₀ D m (items ++ [item]) t' := by
  obtain ⟨names, n⟩ := item
  have hreceives := hreceives.grow h.grows
  have hne : names ≠ [] := htree.named (names, n) (by simp)
  have hjoin : t.joinWithin destination e.member.name = .ok (destination.join (.ofNames names)) :=
    hentry.name.joinWithin_eq hentry.nul_notMem (h.linkFree ⟨m, hreceives.directory⟩)
      hreceives.denotes
  -- The header says what the item is, and the name leads where it spells: nothing that was
  -- unpacked is a link.
  have hnotLink := hentry.notLink
  unfold putEntry
  rw [hjoin]
  dsimp only
  rw [hentry.kind, hentry.mode, hentry.content, hentry.fault?]
  cases n with
  | link target => cases hnotLink
  | directory mode =>
    have hway := h.isOpenWay htree List.prefix_rfl fun _ => rfl
    obtain ⟨t₁, hmake, hmade⟩ := ensureDirectory_eq hreceives h.wellFormed hnames hway hne
    refine ⟨t₁, ?_, h.concat_directory htree hmade⟩
    simp only [Tar.kindOf, hmake]
    rfl
  | file mode content =>
    obtain ⟨front, name, rfl⟩ : ∃ front name, names = front ++ [name] :=
      ⟨_, _, (List.dropLast_concat_getLast hne).symm⟩
    have hway := h.isOpenWay htree (List.prefix_append front [name]) fun heq =>
      absurd heq (by simp)
    obtain ⟨t₁, opened, hmade, hfits, hopen⟩ := openTarget_eq hreceives h.wellFormed hnames hway
      (h.vacant_of_isFile htree rfl) mode
    refine ⟨_, ?_, h.concat_file htree hmade hfits⟩
    simp only [Tar.kindOf, Node.mode, Node.content, hopen]
    rfl

end Unpacked

/-! ### All items -/

/-- A directory that is to be unpacked into: the destination denotes it, the text of the
destination can be walked, entries can be made in the directory, and it has none. -/
structure IsEmptyDirectory (t : FileTree) (destination : Path) (D : Location) (m : Mode) :
    Prop where
  receives : t.Receives destination D m
  hasNul : destination.hasNul = false
  empty : ∀ name, t.lookup (D ++ [name]) = none

/-- All further items, one after the other. -/
theorem Unpacked.unpack_eq (hempty : IsEmptyDirectory t₀ destination D m)
    {further : List (List Name × Node)} {entries : List Entry}
    (hentries : List.Forall₂ IsEntryOf further entries) (h : Unpacked t₀ D m items t)
    (htree : IsTree (items ++ further))
    (hroom : ∀ item ∈ further, (destination.join (.ofNames item.1)).bytes.length ≤ pathLimit)
    (report : Report) :
    ∃ t', unpack destination none t report entries = (.ok (reportAfter report further), t') ∧
      Unpacked t₀ D m (items ++ further) t' := by
  induction hentries generalizing items t report with
  | nil => exact ⟨t, rfl, by rwa [List.append_nil]⟩
  | @cons item e further entries hentry hentries ih =>
    rw [List.append_cons] at htree ⊢
    have hnames : AreWalkable destination item.1 := hentry.name.areWalkable hentry.nul_notMem
      hentry.length_le hempty.hasNul (hroom item List.mem_cons_self)
    obtain ⟨t₁, hput, h₁⟩ := h.putEntry_eq htree.of_append hempty.receives hentry hnames report
    obtain ⟨t', hrest, h'⟩ :=
      ih h₁ htree (fun item hitem => hroom item (List.mem_cons_of_mem _ hitem))
      (reportAfter report [item])
    refine ⟨t', ?_, h'⟩
    rw [unpack, hput, reportAfter_cons report item further]
    exact hrest

/-- What was packed comes out again. A stream that carries the directories and files of a tree,
packed in any order, is unpacked into an empty directory without a fault, if the paths of its
members are no longer than a path may be. All files are there with their bytes and modes, all
directories are there, and those that are above something but were not packed themselves; nothing
else is there, and nothing outside has changed. The report counts the members, and the bytes of
the files. -/
theorem extract_roundTrip (hwf : t.WellFormed) (hempty : IsEmptyDirectory t destination D m)
    (htree : IsTree items)
    (hroom : ∀ item ∈ items, (destination.join (.ofNames item.1)).bytes.length ≤ pathLimit)
    {bytes : Bytes} (hpacks : Packs items bytes) (hlimit : bytes.length < Text.wordLimit)
    {s : Stream} (hcarries : Carries s bytes) :
    ∃ t', extract t destination s =
        (.ok ⟨items.countP fun item => item.2.isDirectory,
          items.countP fun item => item.2.isFile, 0,
          (items.map fun item => item.2.content.length).sum⟩, t') ∧
      (∀ loc : Location, ¬ IsInside D loc → t'.lookup loc = t.lookup loc) ∧
      ∀ (names : List Name) (n : Node), names ≠ [] →
        (t'.lookup (D ++ names) = some n ↔ IsUnpacked items (madeMode m) names n) := by
  obtain ⟨feed, hopen, hwhole, rfl⟩ := hcarries.opened
  obtain ⟨entries, hlisting, hentries⟩ := hpacks.listing_eq (.start hwhole hlimit)
  obtain ⟨t', hunpack, h'⟩ := (Unpacked.refl (m := m) hwf hempty.empty).unpack_eq hempty
    hentries htree hroom .empty
  refine ⟨t', ?_, h'.outside, h'.inside⟩
  rw [extract_eq, hopen]
  dsimp only
  rw [hlisting, hunpack]
  simp [reportAfter, Report.empty]

/-- A file `a/b`, then its directory `a`, and a file `c/d` whose directory is not among the
items. -/
def orphans : List (List Name × Node) :=
  [([[0x61], [0x62]], .file 0o4755 [1, 2, 3]), ([[0x61]], .directory 0o700),
    ([[0x63], [0x64]], .file 0o400 [])]

/-- These items are unpacked into the root of a tree that holds nothing else. -/
theorem orphans_roundTrip :
    ∃ t', extract ⟨[], []⟩ ⟨[slash]⟩ (.ofBytes (pack orphans)) = (.ok ⟨1, 2, 0, 3⟩, t') ∧
      (∀ loc : Location, ¬ IsInside [] loc → t'.lookup loc = (FileTree.mk [] []).lookup loc) ∧
      ∀ (names : List Name) (n : Node), names ≠ [] →
        (t'.lookup ([] ++ names) = some n ↔ IsUnpacked orphans (madeMode 0o755) names n) := by
  have hwf : (FileTree.mk [] []).WellFormed := by decide
  have hempty : IsEmptyDirectory ⟨[], []⟩ ⟨[slash]⟩ [] 0o755 :=
    ⟨⟨by cbv, rfl, by decide⟩, by decide, fun _ => rfl⟩
  have htree : IsTree orphans := ⟨by decide, by decide, by decide⟩
  have hpackable : ∀ item ∈ orphans, IsPackable item := by
    intro item hitem
    simp only [orphans, List.mem_cons, List.not_mem_nil, or_false] at hitem
    rcases hitem with rfl | rfl | rfl <;>
      exact ⟨by decide, by decide, by decide, rfl, by decide⟩
  have hlimit : (pack orphans).length < Text.wordLimit := by decide +kernel
  have hcarries : Carries (.ofBytes (pack orphans)) (pack orphans) := .ofBytes rfl
  exact extract_roundTrip hwf hempty htree (by decide) (packs_pack hpackable) hlimit hcarries

end ImageBuild.Archive
