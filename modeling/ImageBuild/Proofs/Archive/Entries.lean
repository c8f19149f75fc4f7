import ImageBuild.Archive.Unpack

/-!
# `ImageBuild.Proofs.Archive.Entries`: unpacking as a fold over entries

`putMembers` reads a member, puts it, and reads on. What it reads does not depend on the tree, so
the reading can be taken apart from the putting: `listing` is what a stream has to say, member by
member with the content that a run would read, and `unpack` puts these entries into a tree.

* `extract_eq`: unpacking a stream is unpacking its listing.
* `unpack_append`: entries that are put without a fault are followed by the others.
* `listing_eq_append_iff`: a leading part of a listing is read (`Reads`) before the rest.
-/

set_option autoImplicit false

namespace ImageBuild.Archive

/-- A member together with what a run reads of its content. -/
structure Entry where
  member : Tar.Member
  content : Bytes
  /-- The fault that breaks the content off. -/
  fault? : Option StreamFault
  deriving Repr, DecidableEq

/-- The fault that a reading ended with, if it ended with one. -/
def faultOf : Ending → Option StreamFault
  | .failed f => some f
  | .full | .short => none

/-- What a run reads when it puts a member: the content of a file, and nothing of other
members. -/
def readEntry (m : Tar.Member) (c : Tar.Cursor) : Entry × Tar.Cursor :=
  match m.kind with
  | .file => (⟨m, (c.content m.size).1, faultOf (c.content m.size).2.1⟩, (c.content m.size).2.2)
  | .directory | .other => (⟨m, [], none⟩, c)

/-- An entry keeps its member. -/
@[simp]
theorem member_readEntry (m : Tar.Member) (c : Tar.Cursor) : (readEntry m c).1.member = m := by
  unfold readEntry
  split <;> rfl

/-- Reading an entry leaves no more than there was. -/
theorem size_readEntry_le (m : Tar.Member) (c : Tar.Cursor) :
    (readEntry m c).2.feed.size ≤ c.feed.size := by
  have := Tar.Cursor.size_content m.size c
  unfold readEntry
  split
  · simp only; omega
  · exact Nat.le_refl _
  · exact Nat.le_refl _

/-- The entries that can be read from a place in a stream, and the fault after them if they do not
end with the archive. -/
def listing (c : Tar.Cursor) : List Entry × Option Tar.Fault :=
  match _h : c.nextMember with
  | (.error f, _) => ([], some f)
  | (.ok none, _) => ([], none)
  | (.ok (some m), c') =>
    ((readEntry m c').1 :: (listing (readEntry m c').2).1, (listing (readEntry m c').2).2)
  termination_by c.feed.size
  decreasing_by
    all_goals
      have h₁ := Tar.Cursor.size_next_lt _h
      have h₂ := size_readEntry_le m c'
      simp only [Tar.blockSize] at *
      omega

/-- Puts one entry below the destination. -/
def putEntry (destination : Path) (t : FileTree) (report : Report) (e : Entry) :
    Changed Fault Report :=
  match t.joinWithin destination e.member.name with
  | .error f => (.error (.escape f), t)
  | .ok target =>
    match e.member.kind with
    | .directory =>
      match ensureDirectory t target with
      | (.error f, t') => (.error f, t')
      | (.ok (), t') => (.ok { report with directories := report.directories + 1 }, t')
    | .file =>
      match openTarget t target e.member.mode with
      | (.error f, t') => (.error f, t')
      | (.ok loc, t') =>
        let written := (t'.fill loc e.content).changeMode loc e.member.mode
        match e.fault? with
        | some f => (.error (.extraction target (.stream f)), written)
        | none =>
          (.ok
            { report with
              files := report.files + 1
              bytesWritten := report.bytesWritten + e.content.length }, written)
    | .other => (.ok { report with skipped := report.skipped + 1 }, t)

/-- Puts entries below the destination, up to the first fault. A fault that comes after them is
the last. -/
def unpack (destination : Path) (ending : Option Tar.Fault) :
    FileTree → Report → List Entry → Changed Fault Report
  | t, report, [] =>
    match ending with
    | none => (.ok report, t)
    | some f => (.error (.corrupted f), t)
  | t, report, e :: rest =>
    match putEntry destination t report e with
    | (.error f, t') => (.error f, t')
    | (.ok report', t') => unpack destination ending t' report' rest

/-- What the members are read from, once the start of a stream has told how it is compressed. -/
def opened (s : Stream) : Except Fault Feed :=
  match s.readUpTo headerWindow with
  | .error f => .error (.unreadable f)
  | .ok (front, rest) => decoded (rest.putBack front) (detectCompression front)

variable {t t' : FileTree} {destination : Path} {report report' : Report}

/-! ### The fold -/

/-- Entries are unpacked part by part, and a fault in the first part is the end. -/
theorem unpack_append (ending : Option Tar.Fault) (t : FileTree) (report : Report)
    (first rest : List Entry) :
    unpack destination ending t report (first ++ rest) =
      match unpack destination none t report first with
      | (.error f, t') => (.error f, t')
      | (.ok report', t') => unpack destination ending t' report' rest := by
  induction first generalizing t report with
  | nil => rfl
  | cons e more ih =>
    rw [List.cons_append, unpack, unpack]
    rcases putEntry destination t report e with ⟨_ | report', t'⟩
    · rfl
    · exact ih t' report'

/-- Entries that are put without a fault are put one after the other. -/
theorem unpack_cons_eq_ok_iff {e : Entry} {rest : List Entry} :
    unpack destination none t report (e :: rest) = (.ok report', t') ↔
      ∃ report₁ t₁, putEntry destination t report e = (.ok report₁, t₁) ∧
        unpack destination none t₁ report₁ rest = (.ok report', t') := by
  rw [unpack]
  rcases putEntry destination t report e with ⟨_ | report₁, t₁⟩
  · simp
  · exact ⟨fun h => ⟨report₁, t₁, rfl, h⟩, fun ⟨_, _, heq, h⟩ => by cases heq; exact h⟩

/-- Both parts succeed exactly if the whole does. -/
theorem unpack_append_eq_ok_iff {first rest : List Entry} :
    unpack destination none t report (first ++ rest) = (.ok report', t') ↔
      ∃ report₁ t₁, unpack destination none t report first = (.ok report₁, t₁) ∧
        unpack destination none t₁ report₁ rest = (.ok report', t') := by
  rw [unpack_append]
  rcases unpack destination none t report first with ⟨_ | report₁, t₁⟩
  · simp
  · exact ⟨fun h => ⟨report₁, t₁, rfl, h⟩, fun ⟨_, _, heq, h⟩ => by cases heq; exact h⟩

/-- An ending without a fault is the only one that leads to a report. -/
theorem unpack_eq_ok_iff {ending : Option Tar.Fault} {entries : List Entry} :
    unpack destination ending t report entries = (.ok report', t') ↔
      ending = none ∧ unpack destination none t report entries = (.ok report', t') := by
  induction entries generalizing t report with
  | nil => cases ending <;> simp [unpack]
  | cons e rest ih =>
    rw [unpack, unpack]
    rcases putEntry destination t report e with ⟨_ | report₁, t₁⟩
    · simp
    · exact ih

/-! ### Unpacking a listing -/

/-- Putting a member is reading its entry and putting that. A fault leaves the tree that the entry
leaves. -/
theorem putMember_eq (destination : Path) (r : Run) (m : Tar.Member) :
    ∃ c, putMember destination r m =
      match putEntry destination r.tree r.report (readEntry m r.cursor).1 with
      | (.error f, t) => (.error f, ⟨t, c, r.report⟩)
      | (.ok report, t) => (.ok (), ⟨t, (readEntry m r.cursor).2, report⟩) := by
  unfold putMember putEntry readEntry
  cases hkind : m.kind with
  | directory =>
    -- Only a file moves the cursor, and only when its bytes are read.
    refine ⟨r.cursor, ?_⟩
    dsimp only
    cases r.tree.joinWithin destination m.name with
    | error f => rfl
    | ok target =>
      dsimp only
      rw [hkind]
      rcases ensureDirectory r.tree target with ⟨_ | _, t⟩ <;> rfl
  | other =>
    refine ⟨r.cursor, ?_⟩
    dsimp only
    cases r.tree.joinWithin destination m.name with
    | error f => rfl
    | ok target => dsimp only; rw [hkind]
  | file =>
    dsimp only
    cases r.tree.joinWithin destination m.name with
    | error f => exact ⟨r.cursor, rfl⟩
    | ok target =>
      dsimp only
      rw [hkind]
      dsimp only
      unfold writeFile
      rcases openTarget r.tree target m.mode with ⟨f | loc, t⟩
      · exact ⟨r.cursor, rfl⟩
      · rcases r.cursor.content m.size with ⟨bytes, ending, c⟩
        exact ⟨c, by cases ending <;> rfl⟩

/-- Putting members as they are read is unpacking the entries that are listed. -/
theorem putMembers_eq (destination : Path) (r : Run) :
    putMembers destination r =
      unpack destination (listing r.cursor).2 r.tree r.report (listing r.cursor).1 := by
  fun_induction putMembers destination r with
  | case1 r f cursor hnext => rw [listing, hnext]; rfl
  | case2 r cursor hnext => rw [listing, hnext]; rfl
  -- A member that is refused ends both, and one that is put leaves both at the same place.
  | case3 r m cursor hnext f r' hput =>
    obtain ⟨c, hmember⟩ := putMember_eq destination { r with cursor := cursor } m
    rw [hput] at hmember
    rw [listing, hnext, unpack]
    cases hentry : putEntry destination r.tree r.report (readEntry m cursor).1 with
    | mk result t =>
      rw [hentry] at hmember
      cases result with
      | error fault =>
        cases hmember
        rfl
      | ok report => cases hmember
  | case4 r m cursor hnext r' hput ih =>
    obtain ⟨c, hmember⟩ := putMember_eq destination { r with cursor := cursor } m
    rw [hput] at hmember
    rw [listing, hnext, unpack]
    cases hentry : putEntry destination r.tree r.report (readEntry m cursor).1 with
    | mk result t =>
      rw [hentry] at hmember
      cases result with
      | error fault => cases hmember
      | ok report =>
        cases hmember
        exact ih

/-- Unpacking a stream is unpacking its listing. -/
theorem extract_eq (t : FileTree) (destination : Path) (s : Stream) :
    extract t destination s =
      match opened s with
      | .error f => (.error f, t)
      | .ok feed =>
        unpack destination (listing (.start feed)).2 t .empty (listing (.start feed)).1 := by
  unfold extract opened
  cases s.readUpTo headerWindow with
  | error f => rfl
  | ok read =>
    obtain ⟨front, rest⟩ := read
    dsimp only
    cases decoded (rest.putBack front) (detectCompression front) with
    | error f => rfl
    | ok feed => exact putMembers_eq destination ⟨t, .start feed, .empty⟩

/-- Unpacking what was opened. -/
theorem extract_of_opened {s : Stream} {feed : Feed} (h : opened s = .ok feed) :
    extract t destination s =
      unpack destination (listing (.start feed)).2 t .empty (listing (.start feed)).1 := by
  rw [extract_eq, h]

/-! ### Leading parts of a listing -/

/-- Nothing is listed where the archive ends. -/
theorem listing_eq_nil_iff {c : Tar.Cursor} :
    listing c = ([], none) ↔ ∃ c', c.nextMember = (.ok none, c') := by
  rw [listing]
  split
  · next hnext => simp [hnext]
  · next hnext => simp [hnext]
  · next hnext => simp [hnext]

/-- The entries are read from a place in a stream one after the other, and the reading comes to
another place. -/
inductive Reads : Tar.Cursor → List Entry → Tar.Cursor → Prop
  | nil {c : Tar.Cursor} : Reads c [] c
  | cons {c c₁ c₂ : Tar.Cursor} {m : Tar.Member} {rest : List Entry} :
    c.nextMember = (.ok (some m), c₁) → Reads (readEntry m c₁).2 rest c₂ →
    Reads c ((readEntry m c₁).1 :: rest) c₂

/-- The entries that were read come first in the listing. -/
theorem Reads.listing_eq {c c' : Tar.Cursor} {entries : List Entry} (h : Reads c entries c') :
    listing c = (entries ++ (listing c').1, (listing c').2) := by
  induction h with
  | nil => rfl
  | cons hnext _ ih => rw [listing, hnext]; simp [ih]

/-- A leading part of a listing is read before the rest. -/
theorem listing_eq_append_iff {c : Tar.Cursor} {first rest : List Entry}
    {ending : Option Tar.Fault} :
    listing c = (first ++ rest, ending) ↔ ∃ c', Reads c first c' ∧
    listing c' = (rest, ending) := by
  constructor
  · intro h
    induction first generalizing c with
    | nil => exact ⟨c, .nil, h⟩
    | cons e more ih =>
      rw [listing] at h
      split at h
      · cases h
      · cases h
      · next m c₁ hnext =>
        simp only [List.cons_append, Prod.mk.injEq, List.cons.injEq] at h
        obtain ⟨⟨rfl, hmore⟩, hending⟩ := h
        obtain ⟨c', hreads, hrest⟩ := ih (Prod.ext hmore hending)
        exact ⟨c', .cons hnext hreads, hrest⟩
  · rintro ⟨c', hreads, hrest⟩
    rw [hreads.listing_eq, hrest]

end ImageBuild.Archive
