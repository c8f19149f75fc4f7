import ImageBuild.Proofs.Archive.Packing
import ImageBuild.Proofs.Tree.Below

/-!
# `ImageBuild.Proofs.Archive.Confinement`: unpacking touches nothing outside

`Archive.extract` puts the members of a stream below a destination. `ConfinedTo` says what it may
do to the tree: below the directories that the destinations denote the tree grows, and anywhere
else only a missing directory on the way to a destination is made.

A member's name is joined onto the destination first, and only then are directories made and the
file opened, each by its path. So the tree changes between the check and the use, and the
invariant of a member's steps is that every tree is one that the checked one has grown into by
changes below the destination (`putMember_changesBelow`, with `ChangesBelow` from
`ImageBuild.Proofs.Tree.Below`). The members follow one another (`putMembers_changesBelow`), and
so do the runs.

* `extractAll_confinedTo`: runs into anchored destinations are confined to them, whatever the
  streams hold and however the runs end.
* `putMembers_writes_outside`: the assumption is needed. If the destination leads nowhere when a
  member is checked, the links that it then comes to hold are followed: unpacking into `x/../y`
  overwrites what a link in `y` leads to (`detour_writes_outside`).
-/

set_option autoImplicit false

namespace ImageBuild.Archive

open FileTree

variable {t t₁ t₂ : FileTree} {destinations : List Path} {destination : Path} {D : Location}

/-! ### Confinement -/

/-- The location is inside the directory at `D`. -/
def IsInside (D loc : Location) : Prop := D <+: loc ∧ loc ≠ D

/-- A missing directory on the way to a destination, or the destination itself, was made at the
location. -/
def IsMadeOnTheWay (destinations : List Path) (t t' : FileTree) (loc : Location) : Prop :=
  t.lookup loc = none ∧ ∃ destination ∈ destinations, ∃ q : Path,
    q.components <+: destination.components ∧ t'.directoryAt? q = some loc

/-- What runs into the destinations may make of a tree. Its directories, links and files stay what
they are, and nothing at all changes outside of the directories that the destinations denote, but
for missing directories on the way there. -/
structure ConfinedTo (destinations : List Path) (t t' : FileTree) : Prop where
  wellFormed : t'.WellFormed
  grows : t.GrowsInto t'
  outside : ∀ loc : Location,
    (∀ destination ∈ destinations, ∀ D, t'.directoryAt? destination = some D → ¬ IsInside D loc) →
    t'.lookup loc = t.lookup loc ∨ IsMadeOnTheWay destinations t t' loc

namespace ConfinedTo

/-- Doing nothing is confined. -/
theorem refl (destinations : List Path) (hwf : t.WellFormed) : ConfinedTo destinations t t :=
  ⟨hwf, .refl t, fun _ _ => Or.inl rfl⟩

/-- Two confined changes after one another are one. -/
theorem trans (h : ConfinedTo destinations t t₁) (h' : ConfinedTo destinations t₁ t₂) :
    ConfinedTo destinations t t₂ where
  wellFormed := h'.wellFormed
  grows := h.grows.trans h'.grows
  outside loc hout := by
    have hfirst := h.outside loc fun destination hmem D hD =>
      hout destination hmem D (h'.grows.directoryAt? hD)
    rcases hfirst with heq | ⟨hnone, destination, hmem, q, hq, hloc⟩
    · rw [← heq]
      refine (h'.outside loc hout).imp_right fun ⟨hnone, hmade⟩ => ⟨?_, hmade⟩
      rw [← heq, hnone]
    · exact Or.inr ⟨hnone, destination, hmem, q, hq, h'.grows.directoryAt? hloc⟩

/-- Putting a node inside of what a destination denotes is confined to it. -/
theorem set_inside (hwf : t.WellFormed) (hmem : destination ∈ destinations)
    (hD : t.directoryAt? destination = some D) {loc : Location} {n : Node} (hloc : D <+: loc)
    (hfits : t.Fits loc n) : ConfinedTo destinations t (t.set loc n) where
  wellFormed := hfits.wellFormed hwf
  grows := hfits.growsInto
  outside other hout := by
    -- A node is put where nothing or a file was, which the directory itself is not.
    have hne : loc ≠ D := by
      rintro rfl
      obtain ⟨-, m, hm⟩ := directoryAt?_eq_some_iff.mp hD
      exact hfits.not_directory m hm
    have hother : other ≠ loc := by
      rintro rfl
      exact hout destination hmem D (hfits.growsInto.directoryAt? hD) ⟨hloc, hne⟩
    exact Or.inl (hfits.lookup_set_ne hother)

/-- Making a directory on the way to a destination is confined to it. -/
theorem set_on_the_way (hwf : t.WellFormed) (hmem : destination ∈ destinations) {q : Path}
    (hq : q.components <+: destination.components) {dir : Location} {name : Name} {m : Mode}
    (hwalk : t.walk false q = .ok (.vacant dir name))
    (hfits : t.Fits (dir ++ [name]) (.directory m)) :
    ConfinedTo destinations t (t.set (dir ++ [name]) (.directory m)) where
  wellFormed := hfits.wellFormed hwf
  grows := hfits.growsInto
  outside other _ := by
    by_cases hother : other = dir ++ [name]
    · subst hother
      have hwalks := (walk_eq_ok_iff.mp hwalk).2
      have hmade := directoryAt?_of_made hwalk hfits.growsInto hfits.lookup_set_self
      exact Or.inr ⟨hwalks.vacant.1, destination, hmem, q, hq, hmade⟩
    · exact Or.inl (hfits.lookup_set_ne hother)

/-- Changes below a destination are confined to it. -/
theorem of_changesBelow (hwf : t.WellFormed) (hmem : destination ∈ destinations)
    (h : ChangesBelow destination t t₁) : ConfinedTo destinations t t₁ := by
  induction h with
  | refl => exact .refl _ hwf
  | inside _ hD hloc hfits ih => exact ih.trans (.set_inside ih.wellFormed hmem hD hloc hfits)
  | onTheWay _ hq hwalk hfits ih =>
    exact ih.trans (.set_on_the_way ih.wellFormed hmem hq hwalk hfits)

end ConfinedTo

/-! ### One member -/

/-- Where something is, nothing is made. -/
theorem ensureDirectory_of_pathExists {p : Path} (h : t.pathExists p = true) :
    ensureDirectory t p = (.ok (), t) :=
  if_pos h

/-- Where nothing is, a directory is made with all that is missing above it. -/
theorem ensureDirectory_of_missing {p : Path} (h : t.pathExists p = false) :
    ensureDirectory t p =
      ((t.createAll p).1.mapError (.directoryCreation p), (t.createAll p).2) := by
  unfold ensureDirectory
  rw [if_neg (Bool.eq_false_iff.mp h)]
  rcases t.createAll p with ⟨_ | _, t₁⟩ <;> rfl

/-- There is no fault if something is there already, or if the directory can be made. -/
theorem ensureDirectory_eq_ok_iff {t' : FileTree} {p : Path} :
    ensureDirectory t p = (.ok (), t') ↔
      (t.pathExists p = true ∧ t = t') ∨
        (t.pathExists p = false ∧ t.createAll p = (.ok (), t')) := by
  cases h : t.pathExists p with
  | true => simp [ensureDirectory_of_pathExists h]
  | false =>
    rw [ensureDirectory_of_missing h]
    rcases t.createAll p with ⟨_ | _, t₁⟩ <;> simp [Except.mapError]

/-- A directory is made if nothing is there, and otherwise nothing is done. -/
theorem tree_ensureDirectory (t : FileTree) (p : Path) :
    (ensureDirectory t p).2 = t ∨ (ensureDirectory t p).2 = (t.createAll p).2 := by
  cases h : t.pathExists p with
  | true => exact Or.inl (by rw [ensureDirectory_of_pathExists h])
  | false => exact Or.inr (by rw [ensureDirectory_of_missing h])

/-- Makes the directory above a path, if the path has one. -/
def ensureParent (t : FileTree) (p : Path) : Changed Fault Unit :=
  match p.parent? with
  | some up => ensureDirectory t up
  | none => (.ok (), t)

/-- Apart from its fault, opening the file of a member is `openEmpty` in the tree with the
directory above the file. -/
theorem openTarget_eq_ensureParent (t : FileTree) (p : Path) (mode : Mode) :
    openTarget t p mode =
      match ensureParent t p with
      | (.error f, t₁) => (.error f, t₁)
      | (.ok (), t₁) =>
        ((t₁.openEmpty p mode).1.mapError fun f => .extraction p (.file f),
          (t₁.openEmpty p mode).2) := by
  unfold openTarget ensureParent
  cases p.parent? with
  | none =>
    dsimp only
    rcases t.openEmpty p mode with ⟨f | loc, t₂⟩ <;> rfl
  | some up =>
    dsimp only
    rcases ensureDirectory t up with ⟨f | _, t₁⟩
    · rfl
    · dsimp only
      rcases t₁.openEmpty p mode with ⟨f | loc, t₂⟩ <;> rfl

/-- A target is opened after the directories above it are there. -/
theorem openTarget_eq_ok_iff {p : Path} {mode : Mode} {loc : Location} :
    openTarget t p mode = (.ok loc, t₂) ↔
      ∃ t₁, ensureParent t p = (.ok (), t₁) ∧ t₁.openEmpty p mode = (.ok loc, t₂) := by
  rw [openTarget_eq_ensureParent]
  rcases ensureParent t p with ⟨f | _, t₁⟩
  · simp
  · dsimp only
    constructor
    · intro h
      refine ⟨t₁, rfl, ?_⟩
      rcases hopen : t₁.openEmpty p mode with ⟨f | loc', t'⟩ <;> rw [hopen] at h <;> cases h
      rfl
    · rintro ⟨t', heq, hopen⟩
      cases heq
      rw [hopen]
      rfl

section
variable {names : List Name} (hwf : t.WellFormed) (hanchored : t.Anchored destination)
  (hchecked : t.Checked destination names)
include hwf hanchored hchecked

/-- Making sure of a directory changes nothing but below the destination. -/
theorem ensureDirectory_changesBelow {p : Path} (hp : IsAskedFor destination names p) :
    ChangesBelow destination t (ensureDirectory t p).2 := by
  rcases tree_ensureDirectory t p with heq | heq
  · rw [heq]; exact .refl
  · rw [heq]; exact createAll_changesBelow hwf hanchored hchecked hp .refl

/-- So does making sure of the directory of a file. -/
theorem ensureParent_changesBelow :
    ChangesBelow destination t (ensureParent t (destination.join (.ofNames names))).2 := by
  unfold ensureParent
  cases hup : (destination.join (.ofNames names)).parent? with
  | none => exact .refl
  | some up =>
    have hp := (isAskedFor_join destination names).parent? hchecked.isName hup
    exact ensureDirectory_changesBelow hwf hanchored hchecked hp

/-- The file of a member is opened inside of what the destination then denotes. -/
theorem openTarget_changesBelow (mode : Mode) :
    ChangesBelow destination t (openTarget t (destination.join (.ofNames names)) mode).2 ∧
    ∀ loc, (openTarget t (destination.join (.ofNames names)) mode).1 = .ok loc →
      ∃ D m, (openTarget t (destination.join (.ofNames names)) mode).2.directoryAt? destination =
          some D ∧ D <+: loc ∧
        (openTarget t (destination.join (.ofNames names)) mode).2.lookup loc =
          some (.file m []) := by
  -- The names were checked in `t`, and the file is opened in `t₁`, which has more directories.
  have h := ensureParent_changesBelow hwf hanchored hchecked
  rw [openTarget_eq_ensureParent]
  generalize ensureParent t (destination.join (.ofNames names)) = made at h
  rcases made with ⟨f | _, t₁⟩
  · exact ⟨h, by simp⟩
  · obtain ⟨hafter, hfile⟩ := openEmpty_changesBelow hwf hanchored hchecked mode h
    refine ⟨hafter, fun loc hok => hfile loc ?_⟩
    dsimp only at hok
    cases hempty : (t₁.openEmpty (destination.join (.ofNames names)) mode).1 with
    | error f => rw [hempty] at hok; cases hok
    | ok loc' => rw [hempty] at hok; cases hok; rfl

/-- So does writing a file. -/
theorem writeFile_changesBelow {r : Run} (htree : r.tree = t) (m : Tar.Member) :
    ChangesBelow destination t (writeFile r (destination.join (.ofNames names)) m).2.tree := by
  obtain ⟨hopened, hinside⟩ := openTarget_changesBelow hwf hanchored hchecked m.mode
  unfold writeFile
  rw [htree]
  generalize openTarget t (destination.join (.ofNames names)) m.mode = opened at hopened hinside
  rcases opened with ⟨f | loc, t₂⟩
  · exact hopened
  · obtain ⟨D, mode, hD, hloc, hfile⟩ := hinside loc rfl
    have hwritten := hopened.refill hwf hD hloc hfile (r.cursor.content m.size).1 m.mode
    dsimp only
    split <;> exact hwritten

end

/-- Putting one member below an anchored destination, put or refused. -/
theorem putMember_changesBelow (r : Run) (hwf : r.tree.WellFormed)
    (hanchored : r.tree.Anchored destination) (m : Tar.Member) :
    ChangesBelow destination r.tree (putMember destination r m).2.tree := by
  unfold putMember
  cases hjoin : r.tree.joinWithin destination m.name with
  | error f => exact .refl
  | ok target =>
    obtain ⟨names, rfl, hchecked⟩ := Checked.of_joinWithin hwf hjoin
    cases m.kind with
    | directory =>
      have hmade := ensureDirectory_changesBelow hwf hanchored hchecked
        (isAskedFor_join destination names)
      dsimp only
      generalize ensureDirectory r.tree (destination.join (.ofNames names)) = made at hmade
      rcases made with ⟨f | _, t₁⟩ <;> exact hmade
    | file => exact writeFile_changesBelow hwf hanchored hchecked rfl m
    | other => exact .refl

/-! ### Whole runs -/

/-- Putting members below an anchored destination, up to the end of the stream or to the first
fault. -/
theorem putMembers_changesBelow (r : Run) (hwf : r.tree.WellFormed)
    (hanchored : r.tree.Anchored destination) :
    ChangesBelow destination r.tree (putMembers destination r).2 := by
  fun_induction putMembers destination r with
  | case1 r f cursor hnext => exact .refl
  | case2 r cursor hnext => exact .refl
  | case3 r m cursor hnext f r' hput =>
    have hmember := putMember_changesBelow { r with cursor := cursor } hwf hanchored m
    rw [hput] at hmember
    exact hmember
  | case4 r m cursor hnext r' hput ih =>
    have hmember := putMember_changesBelow { r with cursor := cursor } hwf hanchored m
    rw [hput] at hmember
    exact hmember.trans (ih (hmember.wellFormed hwf) (hanchored.grow hmember.grows))

/-- So does a whole run, whatever its outcome. -/
theorem extract_changesBelow (hwf : t.WellFormed) (hanchored : t.Anchored destination)
    (s : Stream) : ChangesBelow destination t (extract t destination s).2 := by
  unfold extract
  split
  · exact .refl
  · split
    · exact .refl
    · next feed _ =>
      exact putMembers_changesBelow ⟨t, .start feed, .empty⟩ hwf hanchored

/-- The tree after a sequence of runs, each with its destination and its stream, whether they
succeed or not. -/
def extractAll (t : FileTree) (runs : List (Path × Stream)) : FileTree :=
  runs.foldl (fun t run => (extract t run.1 run.2).2) t

/-- Several runs are confined to their destinations, listed among others. -/
theorem extractAll_confined_among (hwf : t.WellFormed) {runs : List (Path × Stream)}
    (hanchored : ∀ run ∈ runs, t.Anchored run.1)
    (hmem : ∀ run ∈ runs, run.1 ∈ destinations) :
    ConfinedTo destinations t (extractAll t runs) := by
  induction runs generalizing t with
  | nil => exact .refl _ hwf
  | cons run rest ih =>
    have hfirst := ConfinedTo.of_changesBelow hwf (hmem run List.mem_cons_self)
      (extract_changesBelow hwf (hanchored run List.mem_cons_self) run.2)
    refine hfirst.trans (ih hfirst.wellFormed (fun later hlater => ?_) fun later hlater => ?_)
    · exact (hanchored later (List.mem_cons_of_mem _ hlater)).grow hfirst.grows
    · exact hmem later (List.mem_cons_of_mem _ hlater)

/-- Runs into anchored destinations change nothing outside of the directories that the
destinations denote, but for missing directories on the way there. This holds for every stream,
whole, broken or malformed, for every outcome of each run, and for any number of runs on one
tree. -/
theorem extractAll_confinedTo (hwf : t.WellFormed) {runs : List (Path × Stream)}
    (hanchored : ∀ run ∈ runs, t.Anchored run.1) :
    ConfinedTo (runs.map (·.1)) t (extractAll t runs) :=
  extractAll_confined_among hwf hanchored fun _ hrun => List.mem_map_of_mem hrun

/-- A tree with a file `s`, and a directory `d` in which `l` is a link to the file. -/
def leakyTree : FileTree where
  nodes := [([[0x73]], .file 0o644 [0x6B]), ([[0x64]], .directory 0o755),
    ([[0x64], [0x6C]], .link ⟨[0x2E, 0x2E, 0x2F, 0x73]⟩)]
  workdir := []

/-- A file `a`, and then a file under the name of the link. -/
def leakyItems : List (List Name × Node) :=
  [([[0x61]], .file 0o644 [1]), ([[0x6C]], .file 0o644 [2])]

/-- Two runs into `d`, of which the first would write through the link and the second breaks off,
and between them one into `n`, which is not there. -/
def leakyRuns : List (Path × Stream) :=
  [(⟨[0x64]⟩, .ofBytes (pack leakyItems)),
    (⟨[0x6E]⟩, .ofBytes (pack [([[0x61]], .file 0o644 [3])])),
    (⟨[0x64]⟩, ⟨[[0x1F, 0x8B]], true⟩)]

/-- `leakyTree` with what the runs leave. -/
def leakyResult : FileTree where
  nodes := [([[0x6E], [0x61]], .file 0o644 [3]), ([[0x6E]], .directory 0o755),
    ([[0x64], [0x61]], .file 0o644 [1]), ([[0x73]], .file 0o644 [0x6B]),
      ([[0x64]], .directory 0o755),
    ([[0x64], [0x6C]], .link ⟨[0x2E, 0x2E, 0x2F, 0x73]⟩)]
  workdir := []

set_option maxRecDepth 20000 in
/-- Both files `a` are written, and `s` is not. -/
theorem extractAll_leakyRuns : extractAll leakyTree leakyRuns = leakyResult := by
  have hleaky : ∀ item ∈ leakyItems, IsPackable item := by
    intro item hitem
    simp only [leakyItems, List.mem_cons, List.not_mem_nil, or_false] at hitem
    rcases hitem with rfl | rfl
    · exact ⟨by decide, by decide, by decide, rfl, by decide⟩
    · exact ⟨by decide, by decide, by decide, rfl, by decide⟩
  have hplain : ∀ item ∈ [([[0x61]], Node.file 0o644 [3])], IsPackable item :=
    List.forall_mem_singleton.mpr ⟨by decide, by decide, by decide, rfl, by decide⟩
  unfold extractAll leakyRuns
  rw [List.foldl_cons, List.foldl_cons, List.foldl_cons, List.foldl_nil,
    extract_pack hleaky rfl (by decide +kernel), extract_pack hplain rfl (by decide +kernel)]
  cbv

/-- The runs write two files below their destinations, and nothing through the link. -/
theorem leakyRuns_confinedTo :
    extractAll leakyTree leakyRuns = leakyResult ∧
      ConfinedTo (leakyRuns.map (·.1)) leakyTree (extractAll leakyTree leakyRuns) := by
  have hwf : leakyTree.WellFormed := by decide
  have hthere : leakyTree.Anchored ⟨[0x64]⟩ := by
    have hD : leakyTree.directoryAt? ⟨[0x64]⟩ = some [[0x64]] := by cbv
    exact .of_directoryAt? hD
  have hmissing : leakyTree.Anchored ⟨[0x6E]⟩ := by
    refine .of_clear hwf (by decide) ⟨_, rfl⟩ fun _ _ => ⟨fun target => ?_, trivial⟩
    have hnone : leakyTree.lookup [[0x6E]] = none := by decide
    exact fun hlink => absurd (hnone.symm.trans hlink) (by simp)
  refine ⟨extractAll_leakyRuns, extractAll_confinedTo hwf fun run hrun => ?_⟩
  simp only [leakyRuns, List.mem_cons, List.not_mem_nil, or_false] at hrun
  rcases hrun with rfl | rfl | rfl
  · exact hthere
  · exact hmissing
  · exact hthere

/-! ### Destinations that are not there -/

/-- Making sure of a directory adds directories at most. -/
theorem ensureDirectory_adds (hwf : t.WellFormed) (p : Path) :
    t.AddsDirectories (ensureDirectory t p).2 := by
  rcases tree_ensureDirectory t p with heq | heq
  · rw [heq]; exact .refl hwf
  · rw [heq]; exact createAll_adds hwf p

/-- So does making sure of the directory of a file. -/
theorem ensureParent_adds (hwf : t.WellFormed) (p : Path) :
    t.AddsDirectories (ensureParent t p).2 := by
  unfold ensureParent
  split
  · exact ensureDirectory_adds hwf _
  · exact .refl hwf

/-- A file that was opened is there, and it is empty. -/
theorem lookup_of_openTarget (hwf : t.WellFormed) {p : Path} {mode : Mode} {loc : Location}
    (h : openTarget t p mode = (.ok loc, t₁)) :
    t₁.WellFormed ∧ ∃ m, t₁.lookup loc = some (.file m []) := by
  obtain ⟨t₀, hparent, hopen⟩ := openTarget_eq_ok_iff.mp h
  have hadds := ensureParent_adds hwf p
  rw [hparent] at hadds
  rcases openEmpty_cases hadds.wellFormed p mode with ⟨f, hempty⟩ | ⟨spot, m, -, -, hfits, hempty⟩
  · rw [hopen] at hempty; cases hempty
  · rw [hopen] at hempty
    cases hempty
    exact ⟨hfits.wellFormed hadds.wellFormed, m, hfits.lookup_set_self⟩

/-- A member is checked against nothing while the destination leads nowhere. If its file is then
opened outside of the directory that the destination has come to denote, that file gets the
content and the mode of the member, and no later member changes that. -/
theorem putMembers_writes_outside {r : Run} {cursor : Tar.Cursor} {m : Tar.Member}
    {names : List Name} {loc : Location} (hwf : r.tree.WellFormed)
    (hmissing : r.tree.directoryAt? destination = none)
    (hnext : r.cursor.nextMember = (.ok (some m), cursor)) (hfile : m.kind = .file)
    (hname : m.name = .ofNames names) (hnames : ∀ n ∈ names, IsName n) (hnul : ∀ n ∈ names, 0 ∉ n)
    (hopen : openTarget r.tree (destination.join m.name) m.mode = (.ok loc, t₁))
    (hD : t₁.directoryAt? destination = some D) (hout : ¬ IsInside D loc) :
    (putMembers destination r).2.lookup loc =
      some (.file m.mode (cursor.content m.size).1) := by
  obtain ⟨hwf₁, mode, hempty⟩ := lookup_of_openTarget hwf hopen
  have hjoin : r.tree.joinWithin destination m.name = .ok (destination.join m.name) := by
    rw [hname, joinWithin, (Checked.of_missing hmissing hnames hnul).resolveWithin_eq]
    rfl
  have hfits : t₁.Fits loc (.file mode (cursor.content m.size).1) := .of_file hwf₁ hempty
  have hagain : (t₁.set loc _).Fits loc (.file m.mode (cursor.content m.size).1) := hfits.again
  -- The write and the change of the mode both go to the place that was opened, not to the path.
  have htree : (putMember destination { r with cursor := cursor } m).2.tree =
      (t₁.set loc (.file mode (cursor.content m.size).1)).set loc
        (.file m.mode (cursor.content m.size).1) := by
    rw [← changeMode_eq hfits.lookup_set_self, ← fill_eq hempty]
    unfold putMember writeFile
    rw [hjoin]
    dsimp only
    rw [hfile]
    dsimp only
    rw [hopen]
    dsimp only
    split <;> rfl
  rw [putMembers]
  split
  · next heq => rw [hnext] at heq; cases heq
  · next heq => rw [hnext] at heq; cases heq
  · next m' cursor' heq =>
    rw [hnext] at heq
    cases heq
    split
    · next f r' hput =>
      rw [hput] at htree
      rw [htree]
      exact hagain.lookup_set_self
    · -- The destination is there now, so the rest of the run is confined to it.
      next r' hput =>
      rw [hput] at htree
      have hgrows := hfits.growsInto.trans hagain.growsInto
      have hD' : r'.tree.directoryAt? destination = some D := by
        rw [htree]; exact hgrows.directoryAt? hD
      have hwf' : r'.tree.WellFormed := by
        rw [htree]; exact hagain.wellFormed (hfits.wellFormed hwf₁)
      have hrest := ConfinedTo.of_changesBelow hwf' (List.mem_singleton.mpr rfl)
        (putMembers_changesBelow r' hwf' (.of_directoryAt? hD'))
      have hwritten : r'.tree.lookup loc = some (.file m.mode (cursor.content m.size).1) := by
        rw [htree]; exact hagain.lookup_set_self
      have hkept := hrest.outside loc fun d hd D' hD'' => by
        rw [List.mem_singleton.mp hd, hrest.grows.directoryAt? hD'] at hD''
        exact Option.some.inj hD'' ▸ hout
      rcases hkept with heq | ⟨hnone, -⟩
      · rw [heq]; exact hwritten
      · rw [hwritten] at hnone; cases hnone

/-- A tree with a file `s`, and a directory `y` in which `a` is a link to the file. -/
def detourTree : FileTree where
  nodes := [([[0x73]], .file 0o644 [0x6B]), ([[0x79]], .directory 0o755),
    ([[0x79], [0x61]], .link ⟨[0x2E, 0x2E, 0x2F, 0x73]⟩)]
  workdir := []

/-- The path `x/../y`, which leads nowhere as long as there is no `x`. -/
def detour : Path := ⟨[0x78, 0x2F, 0x2E, 0x2E, 0x2F, 0x79]⟩

/-- The tree once `x` is made and the file is opened. -/
def detourOpened : FileTree where
  nodes := [([[0x73]], .file 0o644 []), ([[0x78]], .directory 0o755),
    ([[0x79]], .directory 0o755),
    ([[0x79], [0x61]], .link ⟨[0x2E, 0x2E, 0x2F, 0x73]⟩)]
  workdir := []

/-- A stream that starts with a file `a` overwrites `s` if it is unpacked into `x/../y`. -/
theorem detour_writes_outside {r : Run} {cursor : Tar.Cursor} {m : Tar.Member}
    (htree : r.tree = detourTree) (hnext : r.cursor.nextMember = (.ok (some m), cursor))
    (hfile : m.kind = .file) (hname : m.name = .ofNames [[0x61]]) :
    (putMembers detour r).2.lookup [[0x73]] =
      some (.file m.mode (cursor.content m.size).1) := by
  have hwf : r.tree.WellFormed := by rw [htree]; decide
  have hmissing : r.tree.directoryAt? detour = none := by rw [htree]; cbv
  have hopen : openTarget r.tree (detour.join m.name) m.mode = (.ok [[0x73]], detourOpened) := by
    rw [htree, hname]; cbv
  have hD : detourOpened.directoryAt? detour = some [[0x79]] := by cbv
  have hout : ¬ IsInside [[0x79]] [[0x73]] := by simp [IsInside]
  exact putMembers_writes_outside hwf hmissing hnext hfile hname (by decide) (by decide) hopen hD
    hout

end ImageBuild.Archive
