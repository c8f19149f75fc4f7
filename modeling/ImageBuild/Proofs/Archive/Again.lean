import ImageBuild.Proofs.Archive.Confinement
import ImageBuild.Proofs.Archive.Opening
import ImageBuild.Proofs.Archive.Packing
import ImageBuild.Proofs.Tree.Settled

/-!
# `ImageBuild.Proofs.Archive.Again`: unpacking the same stream again

A run that has ended well is run again, on the tree that it left. Its names mean the same as
before, if the destination is settled (`ImageBuild.Proofs.Tree.Settled`), and the directories that
it needs are there (`ensureDirectory_again`). Its files are there too, so the second run opens
each of them where the first had put it, provided that the file may be written (`IsPutAt.again`).

The two runs are compared side by side. While the first is on its way to its last tree, the second
has each place either as in that tree or as the first has it at the same entry: `KeepsUp`, with
the step `KeepsUp.putEntry` and the run `KeepsUp.unpack`.

* `extract_again`: the second run ends with the same report and the same tree if all files may be
  written in the tree that the first has left, and it fails with a denied access if one may not.
* `extract_again_of_writable`: files whose members let the owner write may be written.
-/

set_option autoImplicit false

namespace ImageBuild.Archive

open FileTree

variable {t t₁ t₂ final u : FileTree} {destination p : Path} {report report₁ : Report} {e : Entry}
  {loc : Location} {mode : Mode}

/-! ### Steps that were done before -/

/-- A directory that was made or found once is found. -/
theorem ensureDirectory_again (hwf : t.WellFormed) (h : ensureDirectory t p = (.ok (), t₁))
    (hg : t₁.GrowsInto u) : ensureDirectory u p = (.ok (), u) := by
  have hadds := ensureDirectory_adds hwf p
  rw [h] at hadds
  rcases ensureDirectory_eq_ok_iff.mp h with ⟨hthere, rfl⟩ | ⟨-, hmade⟩
  · exact ensureDirectory_of_pathExists (hg.pathExists hwf hthere)
  · rcases isDirectory_of_createAll hmade with hempty | hthere
    · -- For the empty path there is never anything to make.
      have hnothing : u.createAll p = (.ok (), u) := u.createAll_of_isEmpty hempty
      cases hu : u.pathExists p with
      | true => exact ensureDirectory_of_pathExists hu
      | false => exact ensureDirectory_eq_ok_iff.mpr (Or.inr ⟨hu, hnothing⟩)
    · have hlater := hg.pathExists hadds.wellFormed (pathExists_of_isDirectory hthere)
      exact ensureDirectory_of_pathExists hlater

/-- The directories that a first run made are found by a second one. -/
theorem ensureParent_again (hwf : t.WellFormed) (h : ensureParent t p = (.ok (), t₁))
    (hg : t₁.GrowsInto u) : ensureParent u p = (.ok (), u) := by
  unfold ensureParent at h ⊢
  cases hup : p.parent? with
  | none => rfl
  | some up =>
    rw [hup] at h
    exact ensureDirectory_again hwf h hg

/-- A target is opened after the directories above it were added. In a tree with these directories
it is opened at once. -/
theorem openTarget_again (hwf : t.WellFormed) (h : openTarget t p mode = (.ok loc, t₂)) :
    ∃ t₁, t.AddsDirectories t₁ ∧ t₁.openEmpty p mode = (.ok loc, t₂) ∧
      ∀ u, t₁.GrowsInto u → openTarget u p mode =
        ((u.openEmpty p mode).1.mapError fun f => .extraction p (.file f),
          (u.openEmpty p mode).2) := by
  obtain ⟨t₁, hparent, hopen⟩ := openTarget_eq_ok_iff.mp h
  have hadds := ensureParent_adds hwf p
  rw [hparent] at hadds
  refine ⟨t₁, hadds, hopen, fun u hg => ?_⟩
  rw [openTarget_eq_ensureParent, ensureParent_again hwf hparent hg]

/-- What is known of a file that a run put at a place. -/
structure IsPutAt (t : FileTree) (target : Path) (mode : Mode) (content : Bytes) (loc : Location)
    (t₁ : FileTree) : Prop where
  wellFormed : t₁.WellFormed
  grows : t.GrowsInto t₁
  file : t₁.lookup loc = some (.file mode content)
  /-- What else was there is as before. -/
  kept : ∀ other : Location, other ≠ loc → t.lookup other ≠ none →
    t₁.lookup other = t.lookup other
  /-- A file that was there before could be written. -/
  writable : ∀ m content, t.lookup loc = some (.file m content) → (Node.file m []).writable = true
  /-- Later the path leads to the file again, and it is opened if it can be written. -/
  again : ∀ u m content, t₁.GrowsInto u → u.lookup loc = some (.file m content) →
    u.walk true target = .ok (.node loc (.file m content)) ∧
    openTarget u target mode =
      if (Node.file m []).writable then (.ok loc, u.set loc (.file m []))
      else (.error (.extraction target (.file .denied)), u)

/-- An opened file that is filled is put at its place. -/
theorem isPutAt_of_openTarget (hwf : t.WellFormed) {target : Path}
    (h : openTarget t target mode = (.ok loc, t₂)) (content : Bytes) :
    IsPutAt t target mode content loc ((t₂.fill loc content).changeMode loc mode) := by
  obtain ⟨t₁, hadds, hempty, hagain⟩ := openTarget_again hwf h
  rcases openEmpty_cases hadds.wellFormed target mode with ⟨f, heq⟩ | ⟨spot, m, -, -, hfits, heq⟩
  · rw [hempty] at heq; cases heq
  · rw [hempty] at heq
    cases heq
    obtain ⟨hwf', hgrows, hfile, hkept⟩ := hfits.written hadds.wellFormed content mode
    refine ⟨hwf', hadds.grows.trans hgrows, hfile, fun other hne hother => ?_,
      fun m₀ c₀ hold => ?_, fun u m' c' hg hu => ?_⟩
    · rw [hkept other hne, hadds.kept other hother]
    · refine writable_of_openEmpty hadds.wellFormed hempty ((hadds.kept _ ?_).trans hold)
      rw [hold]; simp
    · have hgrows' := hgrows.trans hg
      have hwalk := walk_of_openEmpty hadds.wellFormed hempty hgrows' hu
      refine ⟨hwalk, ?_⟩
      rw [hagain u hgrows', openEmpty_of_file hwalk]
      by_cases hw : (Node.file m' []).writable = true
      · simp only [if_pos hw, Except.mapError]
      · simp only [if_neg hw, Except.mapError]

/-- All that putting an entry can have done. -/
theorem putEntry_cases (h : putEntry destination t report e = (.ok report₁, t₁)) :
    ∃ target, t.joinWithin destination e.member.name = .ok target ∧
      ((e.member.kind = .directory ∧ ensureDirectory t target = (.ok (), t₁) ∧
          report₁ = { report with directories := report.directories + 1 }) ∨
        (e.member.kind = .file ∧ e.fault? = none ∧
          (∃ loc t₂, openTarget t target e.member.mode = (.ok loc, t₂) ∧
            t₁ = (t₂.fill loc e.content).changeMode loc e.member.mode) ∧
          report₁ = { report with
            files := report.files + 1
            bytesWritten := report.bytesWritten + e.content.length }) ∨
        (e.member.kind = .other ∧ t₁ = t ∧
          report₁ = { report with skipped := report.skipped + 1 })) := by
  unfold putEntry at h
  cases hjoin : t.joinWithin destination e.member.name with
  | error f => rw [hjoin] at h; cases h
  | ok target =>
    rw [hjoin] at h
    dsimp only at h
    refine ⟨target, rfl, ?_⟩
    cases hkind : e.member.kind with
    | directory =>
      rw [hkind] at h
      dsimp only at h
      rcases hmade : ensureDirectory t target with ⟨f | _, t'⟩ <;> rw [hmade] at h <;> cases h
      exact Or.inl ⟨rfl, rfl, rfl⟩
    | file =>
      rw [hkind] at h
      dsimp only at h
      rcases hopen : openTarget t target e.member.mode with ⟨f | loc, t'⟩ <;> rw [hopen] at h
      · cases h
      · cases hfault : e.fault? with
        | some f => rw [hfault] at h; cases h
        | none =>
          rw [hfault] at h
          cases h
          exact Or.inr (Or.inl ⟨rfl, rfl, ⟨loc, t', rfl, rfl⟩, rfl⟩)
    | other =>
      rw [hkind] at h
      cases h
      exact Or.inr (Or.inr ⟨rfl, rfl, rfl⟩)

/-- Putting an entry keeps a tree well formed and only adds to it. -/
theorem putEntry_grows (hwf : t.WellFormed)
    (h : putEntry destination t report e = (.ok report₁, t₁)) :
    t₁.WellFormed ∧ t.GrowsInto t₁ := by
  obtain ⟨target, -, ⟨-, hmade, -⟩ | ⟨-, -, ⟨loc, t₂, hopen, rfl⟩, -⟩ | ⟨-, rfl, -⟩⟩ :=
    putEntry_cases h
  · have hadds := ensureDirectory_adds hwf target
    rw [hmade] at hadds
    exact ⟨hadds.wellFormed, hadds.grows⟩
  · have hput := isPutAt_of_openTarget hwf hopen e.content
    exact ⟨hput.wellFormed, hput.grows⟩
  · exact ⟨hwf, .refl t₁⟩

/-- So does unpacking entries. -/
theorem unpack_grows (hwf : t.WellFormed) {entries : List Entry}
    (h : unpack destination none t report entries = (.ok report₁, t₁)) :
    t₁.WellFormed ∧ t.GrowsInto t₁ := by
  induction entries generalizing t report with
  | nil => cases h; exact ⟨hwf, .refl _⟩
  | cons e rest ih =>
    obtain ⟨report', t', hput, hrest⟩ := unpack_cons_eq_ok_iff.mp h
    obtain ⟨hwf', hgrows⟩ := putEntry_grows hwf hput
    obtain ⟨hwf₁, hgrows₁⟩ := ih hwf' hrest
    exact ⟨hwf₁, hgrows.trans hgrows₁⟩

/-! ### Two runs side by side -/

/-- The path leads to a file that may be written. -/
def IsWritableFile (t : FileTree) (p : Path) : Prop :=
  ∃ loc m content, t.walk true p = .ok (.node loc (.file m content)) ∧
    (Node.file m []).writable = true

/-- If the entry is a file, what is there under its name may be written. -/
def IsRewritable (t : FileTree) (destination : Path) (e : Entry) : Prop :=
  e.member.kind = .file → ∀ target, t.joinWithin destination e.member.name = .ok target →
    IsWritableFile t target

/-- The first run has come to the tree `t` on its way to `final`, and the second, which started
from `final`, has come to `u` with the same entries. Each place is as in the end, or it is a file
that both runs have put there by now. -/
structure KeepsUp (final t u : FileTree) : Prop where
  wellFormed : u.WellFormed
  grows : final.GrowsInto u
  lookup : ∀ loc : Location, u.lookup loc = final.lookup loc ∨
    (u.lookup loc = t.lookup loc ∧ (∃ m content, t.lookup loc = some (.file m content)) ∧
      ∃ m content, final.lookup loc = some (.file m content) ∧ (Node.file m []).writable = true)

/-- The second run starts where the first has ended. -/
theorem KeepsUp.start (hwf : final.WellFormed) (t : FileTree) : KeepsUp final t final :=
  ⟨hwf, .refl final, fun _ => Or.inl rfl⟩

/-- In the end both runs have left the same. -/
theorem KeepsUp.same (h : KeepsUp final final u) : final.Same u :=
  ⟨h.grows.workdir, fun loc => (h.lookup loc).elim id And.left⟩

/-- The first run may add directories that the second finds. -/
theorem KeepsUp.kept (h : KeepsUp final t u)
    (hkept : ∀ loc, t.lookup loc ≠ none → t₁.lookup loc = t.lookup loc) : KeepsUp final t₁ u where
  wellFormed := h.wellFormed
  grows := h.grows
  lookup loc := by
    refine (h.lookup loc).imp_right fun ⟨hu, ⟨m, content, hfile⟩, hfinal⟩ => ?_
    have heq := hkept loc (by rw [hfile]; simp)
    exact ⟨hu.trans heq.symm, ⟨m, content, heq.trans hfile⟩, hfinal⟩

/-- A file that the first run puts somewhere is opened by the second at the same place, unless it
may not be written in the end. -/
theorem KeepsUp.openTarget (h : KeepsUp final t u) {target : Path} {content : Bytes}
    (hput : IsPutAt t target mode content loc t₁) (hg : t₁.GrowsInto final) :
    ∃ m c, final.walk true target = .ok (.node loc (.file m c)) ∧
      ((Node.file m []).writable = true → ∃ u₁,
        Archive.openTarget u target mode = (.ok loc, u₁) ∧
          KeepsUp final t₁ ((u₁.fill loc content).changeMode loc mode)) ∧
      ((Node.file m []).writable ≠ true →
        Archive.openTarget u target mode = (.error (.extraction target (.file .denied)), u)) := by
  obtain ⟨m, c, hfinal⟩ := hg.file hput.file
  obtain ⟨m', c', hu⟩ := h.grows.file hfinal
  obtain ⟨-, hopen⟩ := hput.again u m' c' (hg.trans h.grows) hu
  -- The file is as it is in the end, or both runs have put it there by now, and the first could
  -- write it.
  have hsame : (Node.file m' []).writable = (Node.file m []).writable := by
    rcases h.lookup loc with heq | ⟨heq, -, m₁, c₁, hfinal', hw⟩
    · cases hu.symm.trans (heq.trans hfinal)
      rfl
    · cases hfinal.symm.trans hfinal'
      rw [hw, hput.writable m' c' (heq.symm.trans hu)]
  refine ⟨m, c, (hput.again final m c hg hfinal).1, fun hw => ?_, fun hw => ?_⟩
  · rw [hsame, if_pos hw] at hopen
    refine ⟨_, hopen, ?_⟩
    have hfits : u.Fits loc (.file m' []) := .of_file h.wellFormed hu
    obtain ⟨hwf, hgrows, hfile, hkept⟩ := hfits.written h.wellFormed content mode
    refine ⟨hwf, h.grows.trans hgrows, fun other => ?_⟩
    by_cases hother : other = loc
    · subst hother
      exact Or.inr ⟨hfile.trans hput.file.symm, ⟨_, _, hput.file⟩, m, c, hfinal, hw⟩
    · rw [hkept other hother]
      refine (h.lookup other).imp_right fun ⟨heq, ⟨m₁, c₁, hold⟩, hfinal'⟩ => ?_
      have hsame := hput.kept other hother (by rw [hold]; simp)
      exact ⟨heq.trans hsame.symm, ⟨m₁, c₁, hsame.trans hold⟩, hfinal'⟩
  · rw [hsame, if_neg hw] at hopen
    exact hopen

/-- The second run puts an entry as the first did, if it can be written again. -/
theorem KeepsUp.putEntry (h : KeepsUp final t u) (hwf : t.WellFormed)
    (hsettled : t.Settled destination)
    (hput : Archive.putEntry destination t report e = (.ok report₁, t₁))
    (hg : t₁.GrowsInto final) :
    (IsRewritable final destination e →
      ∃ u₁, Archive.putEntry destination u report e = (.ok report₁, u₁) ∧ KeepsUp final t₁ u₁) ∧
    (¬ IsRewritable final destination e → ∃ p,
      Archive.putEntry destination u report e = (.error (.extraction p (.file .denied)), u)) := by
  obtain ⟨hwf₁, hgrows⟩ := putEntry_grows hwf hput
  have hfinal := hgrows.trans hg
  obtain ⟨target, hjoin, hcases⟩ := putEntry_cases hput
  have hjoin' := (hsettled.joinWithin_eq hwf hfinal e.member.name).trans hjoin
  have hjoin_u := (hsettled.joinWithin_eq hwf (hfinal.trans h.grows) e.member.name).trans hjoin
  unfold Archive.putEntry
  rw [hjoin_u]
  dsimp only
  rcases hcases with ⟨hkind, hmade, rfl⟩ | ⟨hkind, hfault, ⟨loc, t₂, hopen, rfl⟩, rfl⟩ |
    ⟨hkind, rfl, rfl⟩
  · have hadds := ensureDirectory_adds hwf target
    rw [hmade] at hadds
    have hagain := ensureDirectory_again hwf hmade (hg.trans h.grows)
    rw [hkind]
    dsimp only
    rw [hagain]
    exact ⟨fun _ => ⟨u, rfl, h.kept hadds.kept⟩, fun hno =>
      absurd (fun hfile => by simp [hkind] at hfile) hno⟩
  · -- Whether a file is refused turns on its mode where the first run has left it, which is the
    -- one place that the name leads to in all later trees.
    have hputAt := isPutAt_of_openTarget hwf hopen e.content
    obtain ⟨m, c, hwalk, hopens, hrefused⟩ := h.openTarget hputAt hg
    have hiff : IsRewritable final destination e ↔ (Node.file m []).writable = true := by
      constructor
      · intro hrewritable
        obtain ⟨_, _, _, hwalk', hw⟩ := hrewritable hkind target hjoin'
        cases hwalk.symm.trans hwalk'
        exact hw
      · intro hw _ target' htarget
        cases hjoin'.symm.trans htarget
        exact ⟨loc, m, c, hwalk, hw⟩
    rw [hkind, hiff]
    dsimp only
    refine ⟨fun hw => ?_, fun hw => ⟨target, by rw [hrefused hw]⟩⟩
    obtain ⟨u₁, hopened, hkeeps⟩ := hopens hw
    rw [hopened, hfault]
    exact ⟨_, rfl, hkeeps⟩
  · rw [hkind]
    exact ⟨fun _ => ⟨u, rfl, h⟩, fun hno => absurd (fun hfile => by simp [hkind] at hfile) hno⟩

/-- The second run puts all entries as the first did, up to one that cannot be written again. -/
theorem KeepsUp.unpack (hwf : t.WellFormed) (hsettled : t.Settled destination)
    {entries : List Entry}
    (hrun : Archive.unpack destination none t report entries = (.ok report₁, final))
    (h : KeepsUp final t u) :
    ((∀ e ∈ entries, IsRewritable final destination e) →
      ∃ u₁, Archive.unpack destination none u report entries = (.ok report₁, u₁) ∧
        final.Same u₁) ∧
    (¬ (∀ e ∈ entries, IsRewritable final destination e) → ∃ p u₁,
      Archive.unpack destination none u report entries =
        (.error (.extraction p (.file .denied)), u₁)) := by
  induction entries generalizing t u report with
  | nil =>
    cases hrun
    exact ⟨fun _ => ⟨u, rfl, h.same⟩, fun hno => absurd (by simp) hno⟩
  | cons e rest ih =>
    obtain ⟨report', t', hput, hrest⟩ := unpack_cons_eq_ok_iff.mp hrun
    obtain ⟨hwf', hgrows⟩ := putEntry_grows hwf hput
    obtain ⟨hagain, hrefused⟩ := h.putEntry hwf hsettled hput (unpack_grows hwf' hrest).2
    rw [List.forall_mem_cons, Archive.unpack]
    by_cases hfirst : IsRewritable final destination e
    · obtain ⟨u', hput', h'⟩ := hagain hfirst
      obtain ⟨hall, hsome⟩ := ih hwf' (hsettled.grow hgrows) hrest h'
      rw [hput']
      exact ⟨fun hboth => hall hboth.2, fun hno => hsome fun hrest => hno ⟨hfirst, hrest⟩⟩
    · obtain ⟨p, hput'⟩ := hrefused hfirst
      rw [hput']
      exact ⟨fun hboth => absurd hboth.1 hfirst, fun _ => ⟨p, u, rfl⟩⟩

/-! ### Whole runs -/

/-- The entries that a stream holds. -/
def entriesOf (s : Stream) : List Entry :=
  match opened s with
  | .ok feed => (listing (.start feed)).1
  | .error _ => []

/-- The entries of a stream that opens are those its feed lists. -/
theorem entriesOf_of_opened {s : Stream} {feed : Feed} (h : opened s = .ok feed) :
    entriesOf s = (listing (.start feed)).1 := by
  unfold entriesOf
  rw [h]

/-- A stream that was unpacked without a fault holds its entries, and then the archive ends. -/
theorem listing_of_extract {s : Stream} (h : extract t destination s = (.ok report, final)) :
    ∃ feed, opened s = .ok feed ∧ listing (.start feed) = (entriesOf s, none) := by
  cases hopen : opened s with
  | error f => rw [extract_eq, hopen] at h; cases h
  | ok feed =>
    rw [extract_of_opened hopen] at h
    exact ⟨feed, rfl, Prod.ext (entriesOf_of_opened hopen).symm (unpack_eq_ok_iff.mp h).1⟩

/-- A stream that was unpacked without a fault is unpacked entry by entry into any tree. -/
theorem extract_eq_unpack {s : Stream} (h : extract t destination s = (.ok report, final))
    (t' : FileTree) :
    extract t' destination s = unpack destination none t' .empty (entriesOf s) := by
  obtain ⟨feed, hopen, hlisting⟩ := listing_of_extract h
  rw [extract_of_opened hopen, hlisting]

/-- Unpacking a stream again into the tree that it was unpacked into does the same again: it ends
with the same report and leaves the same tree. That takes a destination that is settled, and files
that may be written. If a file has come without its owner's right to write, the second run cannot
open it and fails. -/
theorem extract_again (hwf : t.WellFormed) (hsettled : t.Settled destination) {s : Stream}
    (h : extract t destination s = (.ok report, final)) :
    ((∀ e ∈ entriesOf s, IsRewritable final destination e) →
      ∃ t', extract final destination s = (.ok report, t') ∧ final.Same t') ∧
    (¬ (∀ e ∈ entriesOf s, IsRewritable final destination e) →
      ∃ p t', extract final destination s = (.error (.extraction p (.file .denied)), t')) := by
  have hrun := (extract_eq_unpack h t).symm.trans h
  rw [extract_eq_unpack h final]
  exact KeepsUp.unpack hwf hsettled hrun (.start (unpack_grows hwf hrun).1 t)

/-- A tree with an empty directory `d`. -/
def roomyTree : FileTree where
  nodes := [([[0x64]], .directory 0o755)]
  workdir := []

/-- The tree with a file `d/a`. -/
def filledTree (mode : Mode) : FileTree where
  nodes := [([[0x64], [0x61]], .file mode [1]), ([[0x64]], .directory 0o755)]
  workdir := []

/-- A file `a` of one byte, as a stream has it. -/
def loneEntry (mode : Mode) : Entry := ⟨⟨⟨[0x61]⟩, .file, mode, 1⟩, [1], none⟩

/-- The bytes of a stream with this file. -/
def loneBytes (mode : Mode) : Bytes :=
  Tar.headerBlock [0x61] (.file mode [1]) ++ ([1] ++ List.replicate 511 0 ++ [])

/-- The stream of one file lists that file. -/
theorem listing_loneBytes (mode : Mode) :
    ∃ feed, opened (.ofBytes (loneBytes mode)) = .ok feed ∧
      listing (.start feed) = ([loneEntry mode], none) := by
  have hone : (Node.file mode [1]).content.length = 1 := rfl
  have hheader : Tar.IsHeader (Tar.headerBlock [0x61] (.file mode [1])) [0x61] (.file mode [1]) :=
    Tar.isHeader_headerBlock (by decide) _ (by decide) rfl (by rw [hone]; decide)
  have hcarries : Carries (.ofBytes (loneBytes mode)) (loneBytes mode) := .ofBytes rfl
  obtain ⟨feed, hopen, hwhole, hfeed⟩ := hcarries.opened
  have hstart : Tar.Cursor.StandsBefore feed.bytes (.start feed) := by
    refine .start hwhole ?_
    rw [hfeed, loneBytes, List.length_append, hheader.length]
    simp only [List.length_append, List.length_replicate]
    decide
  rw [hfeed, loneBytes] at hstart
  obtain ⟨c', c'', hmember, hentry, hrest, -⟩ :=
    readEntry_of_isHeader hheader (by rw [List.length_replicate]; decide)
      (by rw [List.length_replicate, hone]; decide) hstart
  have hlisting : listing c'' = ([], none) :=
    listing_eq_nil_iff.mpr (hrest.nextMember_of_end (Or.inl rfl))
  have hreads : Reads (.start feed) [_] _ := .cons hmember .nil
  rw [hentry] at hreads
  exact ⟨feed, hopen, by rw [hreads.listing_eq, hlisting]; rfl⟩

/-- Its entries are that file alone. -/
theorem entriesOf_loneBytes (mode : Mode) :
    entriesOf (.ofBytes (loneBytes mode)) = [loneEntry mode] := by
  obtain ⟨feed, hopen, hlisting⟩ := listing_loneBytes mode
  rw [entriesOf_of_opened hopen, hlisting]

/-- Extracting it unpacks that file. -/
theorem extract_loneBytes (mode : Mode)
    (h : unpack ⟨[0x64]⟩ none roomyTree .empty [loneEntry mode] =
      (.ok ⟨0, 1, 0, 1⟩, filledTree mode)) :
    extract roomyTree ⟨[0x64]⟩ (.ofBytes (loneBytes mode)) =
      (.ok ⟨0, 1, 0, 1⟩, filledTree mode) := by
  obtain ⟨feed, hopen, hlisting⟩ := listing_loneBytes mode
  rw [extract_of_opened hopen, hlisting]
  exact h

/-- Unpacking a file `a` into `d` again changes nothing if its owner may write it, and fails if
its owner may only read it. -/
theorem loneBytes_again :
    (∃ t', extract (filledTree 0o644) ⟨[0x64]⟩ (.ofBytes (loneBytes 0o644)) =
        (.ok ⟨0, 1, 0, 1⟩, t') ∧ (filledTree 0o644).Same t') ∧
    ∃ p t', extract (filledTree 0o444) ⟨[0x64]⟩ (.ofBytes (loneBytes 0o444)) =
      (.error (.extraction p (.file .denied)), t') := by
  have hwf : roomyTree.WellFormed := by decide
  have hD : roomyTree.directoryAt? ⟨[0x64]⟩ = some [[0x64]] := by cbv
  have hwritten := extract_again hwf (.of_directoryAt? hD) (extract_loneBytes 0o644 (by cbv))
  have hread := extract_again hwf (.of_directoryAt? hD) (extract_loneBytes 0o444 (by cbv))
  rw [entriesOf_loneBytes] at hwritten hread
  refine ⟨hwritten.1 fun e he _ target htarget => ?_, hread.2 fun hall => ?_⟩
  · have hjoin : (filledTree 0o644).joinWithin ⟨[0x64]⟩ ⟨[0x61]⟩ =
        .ok ⟨[0x64, 0x2F, 0x61]⟩ := by cbv
    rw [List.mem_singleton.mp he] at htarget
    cases hjoin.symm.trans htarget
    exact ⟨[[0x64], [0x61]], 0o644, [1], by cbv, by decide⟩
  · have hjoin : (filledTree 0o444).joinWithin ⟨[0x64]⟩ ⟨[0x61]⟩ =
        .ok ⟨[0x64, 0x2F, 0x61]⟩ := by cbv
    have hthere : (filledTree 0o444).walk true ⟨[0x64, 0x2F, 0x61]⟩ =
        .ok (.node [[0x64], [0x61]] (.file 0o444 [1])) := by cbv
    obtain ⟨loc, m, c, hwalk, hw⟩ := hall _ List.mem_cons_self rfl _ hjoin
    cases hthere.symm.trans hwalk
    exact absurd hw (by decide)

-- The path `x/../y` leads nowhere until there is a directory `x`, and then to a directory with a
-- link `a`. It is not settled: a name that the first run accepts can be refused in the second.
example : (FileTree.mk [([[0x79]], .directory 0o755), ([[0x79], [0x61]], .link ⟨[0x2F]⟩)]
    []).joinWithin
      ⟨[0x78, 0x2F, 0x2E, 0x2E, 0x2F, 0x79]⟩ ⟨[0x61]⟩ =
        .ok ⟨[0x78, 0x2F, 0x2E, 0x2E, 0x2F, 0x79, 0x2F, 0x61]⟩ ∧
    ((FileTree.mk [([[0x79]], .directory 0o755), ([[0x79], [0x61]], .link ⟨[0x2F]⟩)] []).set
      [[0x78]] (.directory 0o755)).joinWithin ⟨[0x78, 0x2F, 0x2E, 0x2E, 0x2F, 0x79]⟩ ⟨[0x61]⟩ =
        .error (.absoluteTarget ⟨[0x2F]⟩ ⟨[0x78, 0x2F, 0x2E, 0x2E, 0x2F, 0x79, 0x2F, 0x61]⟩) := by
  constructor <;> cbv

/-! ### Streams of files that may be written -/

/-- The mode of the entry lets the owner write, if the entry is a file. -/
def Entry.IsWritable (e : Entry) : Prop :=
  e.member.kind = .file → (Node.file e.member.mode []).writable = true

/-- A file that may be written stays one if such entries are put. -/
theorem writable_of_unpack (hwf : t.WellFormed) {entries : List Entry}
    (hrun : unpack destination none t report entries = (.ok report₁, final))
    (hentries : ∀ e ∈ entries, e.IsWritable) {m : Mode} {c : Bytes}
    (hfile : t.lookup loc = some (.file m c)) (hw : (Node.file m []).writable = true) :
    ∃ m' c', final.lookup loc = some (.file m' c') ∧ (Node.file m' []).writable = true := by
  induction entries generalizing t report m c with
  | nil => cases hrun; exact ⟨m, c, hfile, hw⟩
  | cons e rest ih =>
    obtain ⟨report', t', hput, hrest⟩ := unpack_cons_eq_ok_iff.mp hrun
    have hwf' := (putEntry_grows hwf hput).1
    have hentries' : ∀ e ∈ rest, e.IsWritable :=
      fun e he => hentries e (List.mem_cons_of_mem _ he)
    have hthere : t.lookup loc ≠ none := by rw [hfile]; simp
    obtain ⟨target, -, ⟨-, hmade, -⟩ | ⟨hkind, -, ⟨loc', t₂, hopen, rfl⟩, -⟩ | ⟨-, rfl, -⟩⟩ :=
      putEntry_cases hput
    · have hadds := ensureDirectory_adds hwf target
      rw [hmade] at hadds
      exact ih hwf' hrest hentries' ((hadds.kept loc hthere).trans hfile) hw
    · have hputAt := isPutAt_of_openTarget hwf hopen e.content
      by_cases hloc : loc = loc'
      · subst hloc
        exact ih hwf' hrest hentries' hputAt.file (hentries e List.mem_cons_self hkind)
      · exact ih hwf' hrest hentries' ((hputAt.kept loc hloc hthere).trans hfile) hw
    · exact ih hwf' hrest hentries' hfile hw

/-- Entries with such modes can be written again. -/
theorem isRewritable_of_unpack (hwf : t.WellFormed) (hsettled : t.Settled destination)
    {entries : List Entry}
    (hrun : unpack destination none t report entries = (.ok report₁, final))
    (hentries : ∀ e ∈ entries, e.IsWritable) : ∀ e ∈ entries,
      IsRewritable final destination e := by
  induction entries generalizing t report with
  | nil => simp
  | cons e rest ih =>
    obtain ⟨report', t', hput, hrest⟩ := unpack_cons_eq_ok_iff.mp hrun
    obtain ⟨hwf', hgrows⟩ := putEntry_grows hwf hput
    have hfinal := (unpack_grows hwf' hrest).2
    have hentries' : ∀ e ∈ rest, e.IsWritable :=
      fun e he => hentries e (List.mem_cons_of_mem _ he)
    refine List.forall_mem_cons.mpr ⟨fun hkind target htarget => ?_,
      ih hwf' (hsettled.grow hgrows) hrest hentries'⟩
    rw [hsettled.joinWithin_eq hwf (hgrows.trans hfinal)] at htarget
    obtain ⟨target', hjoin, ⟨hdir, -⟩ | ⟨-, -, ⟨loc, t₂, hopen, rfl⟩, -⟩ | ⟨hother, -⟩⟩ :=
      putEntry_cases hput
    · rw [hkind] at hdir; cases hdir
    · cases hjoin.symm.trans htarget
      have hputAt := isPutAt_of_openTarget hwf hopen e.content
      obtain ⟨m, c, hfile, hw⟩ := writable_of_unpack hwf' hrest hentries' hputAt.file
        (hentries e List.mem_cons_self hkind)
      exact ⟨loc, m, c, (hputAt.again final m c hfinal hfile).1, hw⟩
    · rw [hkind] at hother; cases hother

/-- Such a stream can be unpacked into a settled destination again and again. -/
theorem extract_again_of_writable (hwf : t.WellFormed) (hsettled : t.Settled destination)
    {s : Stream} (h : extract t destination s = (.ok report, final))
    (hentries : ∀ e ∈ entriesOf s, e.IsWritable) :
    ∃ t', extract final destination s = (.ok report, t') ∧ final.Same t' := by
  have hrun := (extract_eq_unpack h t).symm.trans h
  rw [extract_eq_unpack h final]
  exact (KeepsUp.unpack hwf hsettled hrun (.start (unpack_grows hwf hrun).1 t)).1
    (isRewritable_of_unpack hwf hsettled hrun hentries)

end ImageBuild.Archive
