import ImageBuild.Proofs.Archive.Additions
import ImageBuild.Proofs.Archive.FailClosed

/-!
# `ImageBuild.Proofs.Archive.Directories`: what becomes of the directories of a stream

A directory of a stream is done, and counted, as soon as its path leads to anything. So when a run
has ended well, the path leads to a directory, or a file stands in its way. The file was there
before the run, or a file further to the front of the stream has put it there, perhaps under
another spelling of the name.

One directory is `ensureDirectory_isDirectory`. What its path leads to it leads to in the end,
because the rest of the run only lets the tree grow.

* `extract_directories`: after a run that has ended well, the path of a directory of the stream
  leads to a directory if and only if it did not lead to a file when its turn came.
-/

set_option autoImplicit false

namespace ImageBuild.Archive

open FileTree

variable {t t₁ final : FileTree} {destination p : Path} {report report₁ : Report} {e : Entry}
  {before after entries : List Entry}

/-! ### One directory -/

/-- A path that was asked for as a directory leads to one, unless it is empty or leads to a file,
which then stays. -/
theorem ensureDirectory_isDirectory (hwf : t.WellFormed)
    (h : ensureDirectory t p = (.ok (), t₁)) :
    (t₁.isDirectory p = true ↔ p.isEmpty = false ∧ t.isFile p = false) ∧
      (t.isFile p = true → t₁ = t) := by
  rcases ensureDirectory_eq_ok_iff.mp h with ⟨hthere, rfl⟩ | ⟨hmissing, hmade⟩
  · obtain ⟨loc, n, hwalk⟩ := pathExists_iff.mp hthere
    refine ⟨⟨fun hdir => ⟨isEmpty_of_isDirectory hdir, isFile_of_isDirectory hdir⟩, ?_⟩,
      fun _ => rfl⟩
    rintro ⟨-, hno⟩
    rcases hwf.directory_or_file_of_walk hwalk with ⟨m, rfl⟩ | ⟨m, content, rfl⟩
    · exact isDirectory_iff.mpr ⟨loc, m, hwalk⟩
    · rw [isFile_iff.mpr ⟨loc, m, content, hwalk⟩] at hno
      cases hno
  · have hno : t.isFile p = false := by
      rw [← Bool.not_eq_true, isFile_iff]
      rintro ⟨loc, m, content, hwalk⟩
      exact Bool.eq_false_iff.mp hmissing (pathExists_iff.mpr ⟨loc, _, hwalk⟩)
    refine ⟨?_, fun hfile => by rw [hno] at hfile; cases hfile⟩
    refine ⟨fun hdir => ⟨isEmpty_of_isDirectory hdir, hno⟩, fun ⟨hne, _⟩ => ?_⟩
    exact (isDirectory_of_createAll hmade).resolve_left (by simp [hne])

/-- So it is in every tree that this one grows into. -/
theorem ensureDirectory_isDirectory_grow (hwf : t.WellFormed)
    (h : ensureDirectory t p = (.ok (), t₁)) (hg : t₁.GrowsInto final) :
    final.isDirectory p = true ↔ p.isEmpty = false ∧ t.isFile p = false := by
  have hwf₁ : t₁.WellFormed := by
    have hadds := ensureDirectory_adds hwf p
    rw [h] at hadds
    exact hadds.wellFormed
  obtain ⟨hiff, hstays⟩ := ensureDirectory_isDirectory hwf h
  refine ⟨fun hdir => ⟨isEmpty_of_isDirectory hdir, ?_⟩,
    fun hway => hg.isDirectory hwf₁ (hiff.mpr hway)⟩
  -- A file that was there is still there.
  rw [← Bool.not_eq_true]
  intro hfile
  cases hstays hfile
  obtain ⟨loc, m, content, hwalk⟩ := isFile_iff.mp hfile
  obtain ⟨m', content', hwalk'⟩ := hg.walk_file hwf hwalk
  have hlater := isFile_of_isDirectory hdir
  rw [isFile_iff.mpr ⟨loc, m', content', hwalk'⟩] at hlater
  cases hlater

/-! ### Whole runs -/

/-- The entries in front of an entry were put, and its name was joined in the tree that they have
left. -/
def IsJoinedAfter (t : FileTree) (destination : Path) (before : List Entry) (e : Entry)
    (t₁ : FileTree) (target : Path) : Prop :=
  (∃ report, unpack destination none t .empty before = (.ok report, t₁)) ∧
    t₁.joinWithin destination e.member.name = .ok target

/-- A run that ends well has counted all entries, the directories among them, and the bytes that
it has read of the files among them. -/
theorem unpack_report (h : unpack destination none t report entries = (.ok report₁, final)) :
    report₁.entries = report.entries + entries.length ∧
      report₁.directories =
        report.directories + (entries.countP fun e => decide (e.member.kind = .directory)) ∧
      report₁.bytesWritten = report.bytesWritten +
        ((entries.filter fun e => e.member.kind = .file).map fun e => e.content.length).sum := by
  induction entries generalizing t report with
  | nil => cases h; exact ⟨rfl, rfl, rfl⟩
  | cons e rest ih =>
    obtain ⟨report', t', hput, hrest⟩ := unpack_cons_eq_ok_iff.mp h
    obtain ⟨hentries, hdirectories, hbytes⟩ := ih hrest
    rw [hentries, hdirectories, hbytes, List.length_cons, List.countP_cons]
    obtain ⟨target, -, ⟨hkind, -, rfl⟩ | ⟨hkind, -, -, rfl⟩ | ⟨hkind, -, rfl⟩⟩ :=
      putEntry_cases hput
    all_goals simp [hkind, Report.entries]; omega

/-- A file at a place where the entries have put things was there before, or it stands where one
of the files among them leads. -/
theorem file_before_or_written (hwf : t.WellFormed)
    (h : unpack destination none t report entries = (.ok report₁, t₁)) {loc : Location} {m : Mode}
    {content : Bytes} (hfile : t₁.lookup loc = some (.file m content)) :
    (∃ m₀ content₀, t.lookup loc = some (.file m₀ content₀)) ∨
      ∃ e ∈ entries, MayWrite t t₁ destination e loc := by
  have hadds := unpack_onlyAdds hwf destination none report entries
  rw [h] at hadds
  exact hadds.file_before hfile

/-- A run that has ended well has counted every directory of the stream, and for each of them the
path that its name was joined to leads to a directory in the end, unless it is empty or led to a
file when its turn came. Such a file is still there in the end. It was there before the run, or a
file in front of the directory was written there. -/
theorem extract_directories (hwf : t.WellFormed) {s : Stream}
    (h : extract t destination s = (.ok report, final)) :
    report.directories = ((entriesOf s).countP fun e => decide (e.member.kind = .directory)) ∧
    ∀ before e after, entriesOf s = before ++ e :: after → e.member.kind = .directory →
      ∃ t₁ target, IsJoinedAfter t destination before e t₁ target ∧
        (final.isDirectory target = true ↔ target.isEmpty = false ∧ t₁.isFile target = false) ∧
        ∀ loc m content, t₁.walk true target = .ok (.node loc (.file m content)) →
          (∃ m' content', final.walk true target = .ok (.node loc (.file m' content'))) ∧
          ((∃ m₀ content₀, t.lookup loc = some (.file m₀ content₀)) ∨
            ∃ e' ∈ before, MayWrite t t₁ destination e' loc) := by
  have hrun := (extract_eq_unpack h t).symm.trans h
  refine ⟨by rw [(unpack_report hrun).2.1, Report.empty, Nat.zero_add],
    fun before e after hentries hkind => ?_⟩
  rw [hentries] at hrun
  obtain ⟨report₁, t₁, hbefore, hrest⟩ := unpack_append_eq_ok_iff.mp hrun
  obtain ⟨report₂, t₂, hput, hafter⟩ := unpack_cons_eq_ok_iff.mp hrest
  obtain ⟨hwf₁, -⟩ := unpack_grows hwf hbefore
  obtain ⟨hwf₂, hgrows₂⟩ := putEntry_grows hwf₁ hput
  have hgrows := (unpack_grows hwf₂ hafter).2
  obtain ⟨target, hjoin, ⟨-, hmade, -⟩ | ⟨hother, -⟩ | ⟨hother, -⟩⟩ := putEntry_cases hput
  · refine ⟨t₁, target, ⟨⟨report₁, hbefore⟩, hjoin⟩,
      ensureDirectory_isDirectory_grow hwf₁ hmade hgrows,
      fun loc m content hwalk => ⟨(hgrows₂.trans hgrows).walk_file hwf₁ hwalk, ?_⟩⟩
    exact file_before_or_written hwf hbefore (hwf₁.lookup_of_walk hwalk)
  · rw [hkind] at hother; cases hother
  · rw [hkind] at hother; cases hother

/-- The directory `a`, as a stream has it. -/
def harmlessEntry : Entry := ⟨⟨⟨[0x61]⟩, .directory, 0o755, 0⟩, [], none⟩

/-- The stream of `harmless` lists one directory. -/
theorem listing_harmless :
    ∃ feed, opened (.ofBytes harmless) = .ok feed ∧
      listing (.start feed) = ([harmlessEntry], none) := by
  have hcarries := carries_harmless []
  rw [List.append_nil] at hcarries
  obtain ⟨feed, hopen, hwhole, hfeed⟩ := hcarries.opened
  have hlength : harmless.length = 512 := isHeader_harmless.length
  have hstart : Tar.Cursor.StandsBefore feed.bytes (.start feed) :=
    .start hwhole (by rw [hfeed, hlength]; decide)
  rw [hfeed, ← List.append_nil harmless] at hstart
  obtain ⟨c', c'', hmember, hentry, hrest, -⟩ := readEntry_of_directory isHeader_harmless hstart
  obtain ⟨c, hnone⟩ := hrest.nextMember_of_end (Or.inl rfl)
  refine ⟨feed, hopen, ?_⟩
  rw [listing, hmember]
  dsimp only
  rw [hentry, listing, hnone]
  rfl

/-- Its entries are that directory alone. -/
theorem entriesOf_harmless : entriesOf (.ofBytes harmless) = [harmlessEntry] := by
  obtain ⟨feed, hopen, hlisting⟩ := listing_harmless
  rw [entriesOf_of_opened hopen, hlisting]

/-- Extracting it puts that directory. -/
theorem extract_harmless (t : FileTree) (destination : Path) :
    extract t destination (.ofBytes harmless) =
      unpack destination none t .empty [harmlessEntry] := by
  obtain ⟨feed, hopen, hlisting⟩ := listing_harmless
  rw [extract_of_opened hopen, hlisting]

/-- Unpacking a directory `a` into `d` makes it if `d` is empty. If there is a file `a`, that
stays, and the run ends well and has counted a directory all the same. -/
theorem harmless_directories :
    extract roomyTree ⟨[0x64]⟩ (.ofBytes harmless) =
      (.ok ⟨1, 0, 0, 0⟩, roomyTree.set [[0x64], [0x61]] (.directory 0o755)) ∧
    (∃ t₁ target, IsJoinedAfter roomyTree ⟨[0x64]⟩ [] harmlessEntry t₁ target ∧
      (roomyTree.set [[0x64], [0x61]] (.directory 0o755)).isDirectory target = true) ∧
    extract (filledTree 0o644) ⟨[0x64]⟩ (.ofBytes harmless) =
      (.ok ⟨1, 0, 0, 0⟩, filledTree 0o644) ∧
    ∃ t₁ target, IsJoinedAfter (filledTree 0o644) ⟨[0x64]⟩ [] harmlessEntry t₁ target ∧
      (filledTree 0o644).isDirectory target = false ∧
      (filledTree 0o644).isFile target = true := by
  have hmakes : extract roomyTree ⟨[0x64]⟩ (.ofBytes harmless) =
      (.ok ⟨1, 0, 0, 0⟩, roomyTree.set [[0x64], [0x61]] (.directory 0o755)) := by
    rw [extract_harmless]; cbv
  have hfinds : extract (filledTree 0o644) ⟨[0x64]⟩ (.ofBytes harmless) =
      (.ok ⟨1, 0, 0, 0⟩, filledTree 0o644) := by
    rw [extract_harmless]; cbv
  obtain ⟨-, hmade⟩ := extract_directories (by decide) hmakes
  obtain ⟨-, hfound⟩ := extract_directories (by decide) hfinds
  -- Both runs join the one name of the stream in the tree that they start in.
  obtain ⟨t₁, target, hjoined, hiff, -⟩ := hmade [] harmlessEntry [] entriesOf_harmless rfl
  obtain ⟨u₁, target', hjoined', hiff', -⟩ := hfound [] harmlessEntry [] entriesOf_harmless rfl
  refine ⟨hmakes, ⟨t₁, target, hjoined, ?_⟩, hfinds, ⟨u₁, target', hjoined', ?_⟩⟩
  · obtain ⟨⟨_, hstart⟩, hjoin⟩ := hjoined
    cases hstart
    have hname : roomyTree.joinWithin ⟨[0x64]⟩ ⟨[0x61]⟩ = .ok ⟨[0x64, 0x2F, 0x61]⟩ := by cbv
    cases hname.symm.trans hjoin
    exact hiff.mpr ⟨by decide, by cbv⟩
  · obtain ⟨⟨_, hstart⟩, hjoin⟩ := hjoined'
    cases hstart
    have hname : (filledTree 0o644).joinWithin ⟨[0x64]⟩ ⟨[0x61]⟩ =
        .ok ⟨[0x64, 0x2F, 0x61]⟩ := by cbv
    cases hname.symm.trans hjoin
    have hfile : (filledTree 0o644).isFile ⟨[0x64, 0x2F, 0x61]⟩ = true := by cbv
    refine ⟨?_, hfile⟩
    rw [← Bool.not_eq_true, hiff', hfile]
    simp

end ImageBuild.Archive
