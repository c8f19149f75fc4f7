import ImageBuild.Proofs.Archive.Again
import ImageBuild.Proofs.Tree.Additions

/-!
# `ImageBuild.Proofs.Archive.Additions`: what unpacking adds, and for which entry

Unpacking removes nothing. This module says for which entry each change was made: a file is
written where the joined name of a file leads (`MayWrite`), and a directory is made where the
joined name of an entry or a path above it leads (`MayMake`). One entry is `putEntry_onlyAdds`,
and a run is `unpack_onlyAdds`, an induction over the entries in which the places of the entries
before are kept. Both hold for every destination and for every outcome.

Where a joined name leads is not always where it says. If the destination comes to lead to a
directory while the entry is put, the last name can be a link in there that was not seen, and a
file is overwritten that no entry names (`detour_writes_outside`). If the destination is settled
this cannot be, and each place is the one that the names spell in the directory of the
destination:

* `extract_onlyAdds`: after a run, however it ends, a file is written only if it is the target of
  a file, and what is new is the target of a file or a directory, or a missing directory above a
  target.
-/

set_option autoImplicit false

namespace ImageBuild.Archive

open FileTree

variable {t t₁ t₂ u : FileTree} {destination : Path} {e : Entry} {loc : Location}
  {names : List Name}

/-! ### The places of an entry -/

/-- The name of the entry was joined onto the destination in a tree between two others, and this
was the answer. -/
def IsJoinedBetween (t t' : FileTree) (destination : Path) (e : Entry) (names : List Name) :
    Prop :=
  ∃ t₀ : FileTree, t₀.WellFormed ∧ t.GrowsInto t₀ ∧ t₀.GrowsInto t' ∧
    t₀.resolveWithin destination e.member.name = .ok names

/-- The directories that putting an entry asks for: its own, or the one that its file is in. -/
def directoriesFor : Tar.MemberKind → List Name → Option (List Name)
  | .directory, names => some names
  | .file, names => some names.dropLast
  | .other, _ => none

/-- The entry is a file, and its joined name leads to the location. -/
def MayWrite (t t' : FileTree) (destination : Path) (e : Entry) (loc : Location) : Prop :=
  e.member.kind = .file ∧ ∃ names, IsJoinedBetween t t' destination e names ∧
    t'.Leads (destination.join (.ofNames names)) loc

/-- The location is where the directory that the entry asks for is, or one above it. -/
def MayMake (t t' : FileTree) (destination : Path) (e : Entry) (loc : Location) : Prop :=
  ∃ names dirs, IsJoinedBetween t t' destination e names ∧
    directoriesFor e.member.kind names = some dirs ∧ t'.LeadsBy (IsAskedFor destination dirs) loc

/-- A name that is joined between two trees is joined between trees further apart. -/
theorem IsJoinedBetween.widen (h : IsJoinedBetween t t₁ destination e names) (hg : u.GrowsInto t)
    (hg' : t₁.GrowsInto t₂) : IsJoinedBetween u t₂ destination e names := by
  obtain ⟨t₀, hwf, hbefore, hafter, hres⟩ := h
  exact ⟨t₀, hwf, hg.trans hbefore, hafter.trans hg', hres⟩

/-- What may be written between two trees may be written between trees further apart. -/
theorem MayWrite.widen (h : MayWrite t t₁ destination e loc) (hwf : t₁.WellFormed)
    (hg : u.GrowsInto t) (hg' : t₁.GrowsInto t₂) : MayWrite u t₂ destination e loc := by
  obtain ⟨hkind, names, hjoined, hleads⟩ := h
  exact ⟨hkind, names, hjoined.widen hg hg', hleads.grow hwf hg'⟩

/-- The same of what may be made. -/
theorem MayMake.widen (h : MayMake t t₁ destination e loc) (hwf : t₁.WellFormed)
    (hg : u.GrowsInto t) (hg' : t₁.GrowsInto t₂) : MayMake u t₂ destination e loc := by
  obtain ⟨names, dirs, hjoined, hdirs, hled⟩ := h
  exact ⟨names, dirs, hjoined.widen hg hg', hdirs, hled.grow hwf hg'⟩

/-! ### One entry -/

section
variable (hwf : t.WellFormed) (hnames : ∀ n ∈ names, IsName n)
include hwf hnames

/-- Making sure of a directory adds directories at most, and only those that were asked for. -/
theorem addsDirectoriesAt_ensureDirectory {p : Path} (hp : IsAskedFor destination names p) :
    AddsDirectoriesAt (IsAskedFor destination names) t (ensureDirectory t p).2 := by
  rcases tree_ensureDirectory t p with heq | heq
  · rw [heq]; exact OnlyAdds.refl hwf
  · rw [heq]
    exact addsDirectoriesAt_createAll hwf (fun hp hup => hp.parent? hnames hup)
      (fun hp => hp.withoutTrailingSlash hnames) hp

/-- Making sure of the directory of a file adds none but those above it. -/
theorem addsDirectoriesAt_ensureParent :
    AddsDirectoriesAt (IsAskedFor destination names.dropLast) t
      (ensureParent t (destination.join (.ofNames names))).2 := by
  unfold ensureParent
  cases hup : (destination.join (.ofNames names)).parent? with
  | none => exact OnlyAdds.refl hwf
  | some up =>
    have hfront : ∀ n ∈ names.dropLast, IsName n := fun n hn =>
      hnames n (List.mem_of_mem_dropLast hn)
    exact addsDirectoriesAt_ensureDirectory hwf hfront (isAskedFor_parent hnames hup)

/-- If the file of an entry cannot be opened, only the directories above it were made. Otherwise
it is opened, filled and given its mode where its joined name leads. -/
theorem openTarget_onlyAdds (mode : Mode) (content : Bytes) :
    (∃ f t', openTarget t (destination.join (.ofNames names)) mode = (.error f, t') ∧
      AddsDirectoriesAt (IsAskedFor destination names.dropLast) t t') ∨
    ∃ loc t', openTarget t (destination.join (.ofNames names)) mode = (.ok loc, t') ∧
      OnlyAdds
        (((t'.fill loc content).changeMode loc mode).Leads (destination.join (.ofNames names)))
        (((t'.fill loc content).changeMode loc mode).LeadsBy
          (IsAskedFor destination names.dropLast))
        t ((t'.fill loc content).changeMode loc mode) := by
  have hparent : AddsDirectoriesAt (IsAskedFor destination names.dropLast) t
      (ensureParent t (destination.join (.ofNames names))).2 :=
    addsDirectoriesAt_ensureParent hwf hnames
  rw [openTarget_eq_ensureParent]
  rcases hmade : ensureParent t (destination.join (.ofNames names)) with ⟨f | _, t₁⟩
  all_goals rw [hmade] at hparent
  · exact Or.inl ⟨f, t₁, rfl, hparent⟩
  · -- The directories are in `t₁`. There the file is opened, and what is opened is filled.
    dsimp only at hparent ⊢
    rcases openEmpty_cases hparent.wellFormed (destination.join (.ofNames names)) mode with
      ⟨f, hempty⟩ | ⟨spot, m, -, -, hfits, hempty⟩
    · rw [hempty]
      exact Or.inl ⟨_, t₁, rfl, hparent⟩
    · obtain ⟨hwf', hgrows, hfile, hkept⟩ := hfits.written hparent.wellFormed content mode
      have hleads := walk_of_openEmpty hparent.wellFormed hempty hgrows hfile
      rw [hempty]
      refine Or.inr ⟨spot.loc, _, rfl, ?_⟩
      exact (hparent.later hgrows).trans (.of_put hwf' hgrows hfile hkept (fun _ => ⟨_, hleads⟩)
        (by simp [Node.isDirectory]))

end

/-- Putting an entry, put or refused, writes no file but its own and makes no directory but those
that it asks for. -/
theorem putEntry_onlyAdds (hwf : t.WellFormed) (destination : Path) (report : Report)
    (e : Entry) :
    OnlyAdds (MayWrite t (putEntry destination t report e).2 destination e)
      (MayMake t (putEntry destination t report e).2 destination e) t
      (putEntry destination t report e).2 := by
  unfold putEntry joinWithin
  cases hres : t.resolveWithin destination e.member.name with
  | error f => exact .refl hwf
  | ok names =>
    have hnames := (Checked.of_resolveWithin hwf hres).isName
    have hjoined : ∀ {t' : FileTree}, t.GrowsInto t' → IsJoinedBetween t t' destination e names :=
      fun hg => ⟨t, hwf, .refl t, hg, hres⟩
    dsimp only [Except.map]
    cases hkind : e.member.kind with
    | directory =>
      have hmade :=
        addsDirectoriesAt_ensureDirectory hwf hnames (isAskedFor_join destination names)
      dsimp only
      generalize ensureDirectory t (destination.join (.ofNames names)) = made at hmade
      have hplaced : OnlyAdds (MayWrite t made.2 destination e) (MayMake t made.2 destination e) t
          made.2 :=
        hmade.mono (fun _ hfalse => hfalse.elim) fun loc hled =>
          ⟨names, names, hjoined hmade.grows, by rw [hkind]; rfl, hled⟩
      rcases made with ⟨f | _, t₁⟩ <;> exact hplaced
    | file =>
      have hdirs : directoriesFor e.member.kind names = some names.dropLast := by rw [hkind]; rfl
      dsimp only
      rcases openTarget_onlyAdds hwf hnames e.member.mode e.content with
        ⟨f, t₁, hopen, hmade⟩ | ⟨loc, t₁, hopen, hwritten⟩
      · rw [hopen]
        exact hmade.mono (fun _ hfalse => hfalse.elim) fun loc hled =>
          ⟨names, _, hjoined hmade.grows, hdirs, hled⟩
      · rw [hopen]
        have hplaced : OnlyAdds
            (MayWrite t ((t₁.fill loc e.content).changeMode loc e.member.mode) destination e)
            (MayMake t ((t₁.fill loc e.content).changeMode loc e.member.mode) destination e) t
            ((t₁.fill loc e.content).changeMode loc e.member.mode) :=
          hwritten.mono (fun _ hleads => ⟨hkind, names, hjoined hwritten.grows, hleads⟩)
            fun _ hled => ⟨names, _, hjoined hwritten.grows, hdirs, hled⟩
        -- The fault comes after the bytes, so the file is written in both cases.
        cases e.fault? <;> exact hplaced
    | other => exact .refl hwf

/-! ### Whole runs -/

/-- Putting entries, up to the first fault, writes files and makes directories only where entries
lead to. -/
theorem unpack_onlyAdds (hwf : t.WellFormed) (destination : Path) (ending : Option Tar.Fault)
    (report : Report) (entries : List Entry) :
    OnlyAdds
      (fun loc => ∃ e ∈ entries,
        MayWrite t (unpack destination ending t report entries).2 destination e loc)
      (fun loc => ∃ e ∈ entries,
        MayMake t (unpack destination ending t report entries).2 destination e loc)
      t (unpack destination ending t report entries).2 := by
  induction entries generalizing t report with
  | nil => cases ending <;> exact .refl hwf
  | cons e rest ih =>
    have hfirst := putEntry_onlyAdds hwf destination report e
    rw [unpack]
    generalize putEntry destination t report e = put at hfirst
    rcases put with ⟨f | report₁, t₁⟩
    · exact hfirst.mono (fun loc h => ⟨e, List.mem_cons_self, h⟩)
        fun loc h => ⟨e, List.mem_cons_self, h⟩
    · -- The tree goes on growing, so the places of the first entry stay its places.
      have hrest := ih hfirst.wellFormed report₁
      dsimp only
      generalize (unpack destination ending t₁ report₁ rest).2 = final at hrest
      have hfirst' := hfirst.mono
        (fun loc h => h.widen hfirst.wellFormed (.refl t) hrest.grows)
        (fun loc h => h.widen hfirst.wellFormed (.refl t) hrest.grows)
      refine (hfirst'.mono ?_ ?_).trans (hrest.mono ?_ ?_)
      · exact fun loc h => ⟨e, List.mem_cons_self, h⟩
      · exact fun loc h => ⟨e, List.mem_cons_self, h⟩
      · rintro loc ⟨e', he', h⟩
        exact ⟨e', List.mem_cons_of_mem _ he',
          h.widen hrest.wellFormed hfirst.grows (.refl final)⟩
      · rintro loc ⟨e', he', h⟩
        exact ⟨e', List.mem_cons_of_mem _ he',
          h.widen hrest.wellFormed hfirst.grows (.refl final)⟩

/-- Unpacking a stream, however the run ends, writes files and makes directories only where its
entries lead to. -/
theorem extract_onlyAdds_led (hwf : t.WellFormed) (destination : Path) (s : Stream) :
    OnlyAdds
      (fun loc => ∃ e ∈ entriesOf s, MayWrite t (extract t destination s).2 destination e loc)
      (fun loc => ∃ e ∈ entriesOf s, MayMake t (extract t destination s).2 destination e loc)
      t (extract t destination s).2 := by
  rw [extract_eq]
  unfold entriesOf
  cases opened s with
  | error f => exact .refl hwf
  | ok feed =>
    exact unpack_onlyAdds hwf destination (listing (.start feed)).2 .empty
      (listing (.start feed)).1

/-! ### Settled destinations -/

/-- The location is the target of the entry: where its names lead in the directory that the
destination denotes. -/
def IsTarget (t t' : FileTree) (destination : Path) (e : Entry) (loc : Location) : Prop :=
  ∃ names D, t.resolveWithin destination e.member.name = .ok names ∧
    t'.directoryAt? destination = some D ∧ loc = D ++ names

/-- The location is above the target of the entry: on the way to the destination, or where some of
the first names lead in the directory that the destination denotes. -/
def IsAboveTarget (t t' : FileTree) (destination : Path) (e : Entry) (loc : Location) : Prop :=
  ∃ names, t.resolveWithin destination e.member.name = .ok names ∧
    ((∃ q : Path, q.components <+: destination.components ∧ t'.Leads q loc) ∨
      ∃ D first more, t'.directoryAt? destination = some D ∧ names = first ++ more ∧ more ≠ [] ∧
        loc = D ++ first)

/-- In a settled destination an entry has the same names at any time, and they pass the check in
the end. -/
theorem IsJoinedBetween.of_settled (h : IsJoinedBetween t t₁ destination e names)
    (hsettled : t.Settled destination) (hwf : t.WellFormed) (hwf' : t₁.WellFormed) :
    t.resolveWithin destination e.member.name = .ok names ∧ t₁.Checked destination names := by
  obtain ⟨t₀, -, hbefore, hafter, hres⟩ := h
  rw [hsettled.resolveWithin_eq hwf hbefore] at hres
  have hlater : t₁.resolveWithin destination e.member.name = .ok names := by
    rw [hsettled.resolveWithin_eq hwf (hbefore.trans hafter)]
    exact hres
  exact ⟨hres, .of_resolveWithin hwf' hlater⟩

/-- For a settled destination, what may be written is the target of the member. -/
theorem MayWrite.isTarget (h : MayWrite t t₁ destination e loc) (hsettled : t.Settled destination)
    (hwf : t.WellFormed) (hwf' : t₁.WellFormed) : IsTarget t t₁ destination e loc := by
  obtain ⟨-, names, hjoined, hleads⟩ := h
  obtain ⟨hres, hchecked⟩ := hjoined.of_settled hsettled hwf hwf'
  obtain ⟨D, hD, hloc⟩ := hchecked.loc_of_leads hleads
  exact ⟨names, D, hres, hD, hloc⟩

/-- What may be made then is the target of a directory, or above a target. -/
theorem MayMake.isTarget_or (h : MayMake t t₁ destination e loc)
    (hsettled : t.Settled destination) (hwf : t.WellFormed) (hwf' : t₁.WellFormed) :
    e.member.kind = .directory ∧ IsTarget t t₁ destination e loc ∨
      e.member.kind ≠ .other ∧ IsAboveTarget t t₁ destination e loc := by
  obtain ⟨names, dirs, hjoined, hdirs, q, hq, hleads⟩ := h
  obtain ⟨hres, hchecked⟩ := hjoined.of_settled hsettled hwf hwf'
  have hother : e.member.kind ≠ .other := by
    intro hother
    rw [hother] at hdirs
    cases hdirs
  rcases hq with hlead | ⟨first, more, hfirst, hsome, rfl⟩
  · exact Or.inr ⟨hother, names, hres, Or.inl ⟨q, hlead, hleads⟩⟩
  · -- The path is the destination with some of the first names.
    have hlonger : ∃ last, names = first ++ last ∧ (e.member.kind = .directory ∨ last ≠ []) := by
      cases hkind : e.member.kind with
      | other => exact absurd hkind hother
      | directory =>
        rw [hkind] at hdirs
        cases hdirs
        exact ⟨more, hfirst, Or.inl rfl⟩
      | file =>
        rw [hkind] at hdirs
        cases hdirs
        by_cases hne : names = []
        · subst hne
          exact absurd (List.append_eq_nil_iff.mp hfirst.symm).1 hsome
        · refine ⟨more ++ [names.getLast hne], ?_, Or.inr (by simp)⟩
          rw [← List.append_assoc, ← hfirst, List.dropLast_concat_getLast]
    obtain ⟨last, rfl, hkind⟩ := hlonger
    obtain ⟨D, hD, hloc⟩ := hchecked.of_append.loc_of_leads hleads
    by_cases hlast : last = []
    · subst hlast
      rw [List.append_nil] at hres
      exact Or.inl ⟨hkind.resolve_right (by simp), first, D, hres, hD, hloc⟩
    · exact Or.inr ⟨hother, _, hres, Or.inr ⟨D, first, last, hD, rfl, hlast, hloc⟩⟩

/-- Unpacking a stream into a settled destination, however the run ends, only adds. Whatever was
there is still there and of the same kind, with its mode if it is a directory and its target if it
is a link. The bytes and the mode of a file change only if the file is the target of a file in the
stream. What is new is the target of a file, the target of a directory, or a directory above a
target, and never a link. -/
theorem extract_onlyAdds (hwf : t.WellFormed) (hsettled : t.Settled destination) (s : Stream) :
    OnlyAdds
      (fun loc => ∃ e ∈ entriesOf s, e.member.kind = .file ∧
        IsTarget t (extract t destination s).2 destination e loc)
      (fun loc => ∃ e ∈ entriesOf s,
        e.member.kind = .directory ∧ IsTarget t (extract t destination s).2 destination e loc ∨
          e.member.kind ≠ .other ∧ IsAboveTarget t (extract t destination s).2 destination e loc)
      t (extract t destination s).2 := by
  have hled := extract_onlyAdds_led hwf destination s
  refine hled.mono ?_ ?_
  · intro loc ⟨e, he, hwrite⟩
    exact ⟨e, he, hwrite.1, hwrite.isTarget hsettled hwf hled.wellFormed⟩
  · intro loc ⟨e, he, hmake⟩
    exact ⟨e, he, hmake.isTarget_or hsettled hwf hled.wellFormed⟩

/-- Unpacking a file `a` into the empty directory `d` adds the file `d/a` and nothing else. -/
theorem loneBytes_onlyAdds :
    extract roomyTree ⟨[0x64]⟩ (.ofBytes (loneBytes 0o644)) =
      (.ok ⟨0, 1, 0, 1⟩, filledTree 0o644) ∧
    OnlyAdds
      (fun loc => ∃ e ∈ entriesOf (.ofBytes (loneBytes 0o644)), e.member.kind = .file ∧
        IsTarget roomyTree (filledTree 0o644) ⟨[0x64]⟩ e loc)
      (fun loc => ∃ e ∈ entriesOf (.ofBytes (loneBytes 0o644)),
        e.member.kind = .directory ∧ IsTarget roomyTree (filledTree 0o644) ⟨[0x64]⟩ e loc ∨
          e.member.kind ≠ .other ∧ IsAboveTarget roomyTree (filledTree 0o644) ⟨[0x64]⟩ e loc)
      roomyTree (filledTree 0o644) := by
  have hwf : roomyTree.WellFormed := by decide
  have hD : roomyTree.directoryAt? ⟨[0x64]⟩ = some [[0x64]] := by cbv
  have hrun := extract_loneBytes 0o644 (by cbv)
  have hadds := extract_onlyAdds hwf (.of_directoryAt? hD) (.ofBytes (loneBytes 0o644))
  rw [hrun] at hadds
  exact ⟨hrun, hadds⟩

/-- The destination has to be settled. Unpacking a file `a` into `x/../y` overwrites a file that
is not the target of `a`: the target is the link `y/a`, and the file is what that leads to. -/
theorem detour_overwrites_no_target {report : Report} (hkind : e.member.kind = .file)
    (hname : e.member.name = .ofNames [[0x61]]) :
    (putEntry detour detourTree report e).2.lookup [[0x73]] =
        some (.file e.member.mode e.content) ∧
      ¬ IsTarget detourTree (putEntry detour detourTree report e).2 detour e [[0x73]] := by
  have hwf : detourTree.WellFormed := by decide
  have hopened : detourOpened.WellFormed := by decide
  have hres : detourTree.resolveWithin detour e.member.name = .ok [[0x61]] := by rw [hname]; cbv
  have hopen : openTarget detourTree (detour.join (.ofNames [[0x61]])) e.member.mode =
      (.ok [[0x73]], detourOpened) := by cbv
  have hD : detourOpened.directoryAt? detour = some [[0x79]] := by cbv
  have hempty : detourOpened.lookup [[0x73]] = some (.file 0o644 []) := by decide
  have hfits : detourOpened.Fits [[0x73]] (.file 0o644 e.content) := .of_file hopened hempty
  have htree : (putEntry detour detourTree report e).2 =
      (detourOpened.set [[0x73]] (.file 0o644 e.content)).set [[0x73]]
        (.file e.member.mode e.content) := by
    rw [← changeMode_eq hfits.lookup_set_self, ← fill_eq hempty]
    unfold putEntry joinWithin
    rw [hres, hkind]
    dsimp only [Except.map]
    rw [hopen]
    dsimp only
    cases e.fault? <;> rfl
  have hagain : (detourOpened.set [[0x73]] _).Fits [[0x73]] (.file e.member.mode e.content) :=
    hfits.again
  rw [htree]
  refine ⟨hagain.lookup_set_self, ?_⟩
  -- A target would be `y/a`, and the file that was written is `s`.
  rintro ⟨names, D, hnames, hdir, hloc⟩
  rw [hres] at hnames
  rw [hagain.growsInto.directoryAt? (hfits.growsInto.directoryAt? hD)] at hdir
  cases hnames
  cases hdir
  simp at hloc

end ImageBuild.Archive
