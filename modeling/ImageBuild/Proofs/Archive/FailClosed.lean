import ImageBuild.Proofs.Archive.Opening
import ImageBuild.Proofs.Archive.Packing
import Mathlib

/-!
# `ImageBuild.Proofs.Archive.FailClosed`: nothing is unpacked from the first refused name on

A run stops at the first member whose name is refused below the destination. The name is judged in
the tree that the members before it have left, and that tree is all that the run leaves:
`extract_failsClosed`.

That nothing behind the refused member's header matters is a comparison of two runs. The entries
before it are read in the same way from every stream that has the same first bytes
(`Reads.shares`), because a member is found before any byte behind its header is looked at. A
stream that is cut off before the refused member's header holds just the entries before it, and it
ends as an archive does (`Tar.Cursor.nextMember_of_end`).
-/

set_option autoImplicit false

namespace ImageBuild.Archive

open Tar

variable {t t' : FileTree} {destination : Path} {report report' : Report} {entries : List Entry}
  {c c' c'' d : Cursor} {m : Member} {p : Nat}

/-! ### Where entries end -/

/-- Where entries were read from and a member comes after them, there is a member. -/
theorem Reads.nextMember (h : Reads c entries c') (hnext : c'.nextMember = (.ok (some m), c'')) :
    ∃ m₁ c₁, c.nextMember = (.ok (some m₁), c₁) := by
  cases h with
  | nil => exact ⟨m, c'', hnext⟩
  | cons hfirst => exact ⟨_, _, hfirst⟩

/-- Members that are read lie one behind the other, inside the stream. -/
theorem Reads.position (h : Reads c entries c') (hfaults : ∀ e ∈ entries, e.fault? = none) :
    c.position ≤ c'.position ∧ c'.extent ≤ c.extent := by
  induction h with
  | nil => exact ⟨Nat.le_refl _, Nat.le_refl _⟩
  | @cons c c₁ c₂ m rest hnext hreads ih =>
    have hmember := Cursor.position_nextMember hnext
    have hentry := position_readEntry (hfaults _ List.mem_cons_self) (Cursor.size_le_ahead hnext)
    have hle := c.position_le_next
    have hrest := ih fun e he => hfaults e (List.mem_cons_of_mem _ he)
    omega

/-- The content of an entry that was put without a fault did not break off. -/
theorem fault?_of_putEntry
    (h : putEntry destination t report (readEntry m c).1 = (.ok report', t')) :
    (readEntry m c).1.fault? = none := by
  unfold putEntry readEntry at h
  unfold readEntry
  cases hkind : m.kind with
  | directory | other => rfl
  | file =>
    simp only [hkind] at h ⊢
    split at h
    · cases h
    · split at h
      · cases h
      · split at h
        · cases h
        · assumption

/-- Entries that are all put had no fault. -/
theorem Reads.faultless (h : Reads c entries c')
    (hput : unpack destination none t report entries = (.ok report', t')) :
    ∀ e ∈ entries, e.fault? = none := by
  induction h generalizing t report with
  | nil => simp
  | cons _ _ ih =>
    obtain ⟨report₁, t₁, hentry, hrest⟩ := unpack_cons_eq_ok_iff.mp hput
    rintro e (_ | ⟨_, he⟩)
    · exact fault?_of_putEntry hentry
    · exact ih hrest e he

/-! ### Entries of streams with the same first bytes -/

/-- Content that something follows is read in the same way from both. -/
theorem readEntry_of_sharesTo (hs : c.SharesTo p d) (hfault : (readEntry m c).1.fault? = none)
    (hmore : (readEntry m c).2.feed.bytes ≠ []) (hp : (readEntry m c).2.position ≤ p) :
    (readEntry m d).1 = (readEntry m c).1 ∧
    Cursor.SharesTo p (readEntry m c).2 (readEntry m d).2 := by
  unfold readEntry at hfault hmore hp ⊢
  cases hkind : m.kind with
  | directory | other => exact ⟨rfl, hs⟩
  | file =>
    rw [hkind] at hfault hmore hp
    rcases htake : c.content m.size with ⟨b, ending, c'⟩
    simp only [htake] at hfault hmore hp ⊢
    have hending : ∀ f, ending ≠ .failed f := by
      rintro f rfl
      cases hfault
    obtain ⟨-, -, -, -, -, hshort⟩ := Cursor.take_spec (by decide) htake hending
    cases ending with
    | failed f => cases hfault
    | short => exact absurd (hshort rfl) hmore
    | full =>
      obtain ⟨d', htake', hs'⟩ := hs.take (by decide) htake hp
      have hcontent : d.content m.size = (b, .full, d') := htake'
      rw [hcontent]
      exact ⟨rfl, hs'⟩

/-- Entries that a member follows are read in the same way from both. -/
theorem Reads.shares (h : Reads c entries c') (hfaults : ∀ e ∈ entries, e.fault? = none)
    (hnext : c'.nextMember = (.ok (some m), c'')) (hp : c'.position ≤ p) (hs : c.SharesTo p d) :
    ∃ d', Reads d entries d' ∧ c'.SharesTo p d' := by
  induction h generalizing d with
  | nil => exact ⟨d, .nil, hs⟩
  | @cons c c₁ c₂ m₁ rest hfirst hreads ih =>
    have hfault := hfaults _ List.mem_cons_self
    have hrest : ∀ e ∈ rest, e.fault? = none := fun e he => hfaults e (List.mem_cons_of_mem _ he)
    -- Another member is found behind this one, so its content does not end with the stream.
    obtain ⟨m₂, c₃, hsecond⟩ := hreads.nextMember hnext
    have hmore := Cursor.ne_nil_of_nextAfter hsecond
    have hpos := position_readEntry hfault (Cursor.size_le_ahead hfirst)
    have hpos' := hreads.position hrest
    obtain ⟨d₁, hfirst', hs₁⟩ := hs.nextMember hfirst (by omega)
    obtain ⟨hentry, hs₂⟩ := readEntry_of_sharesTo hs₁ hfault hmore (by omega)
    obtain ⟨d', hreads', hs'⟩ := ih hrest hnext hp hs₂
    exact ⟨d', hentry ▸ .cons hfirst' hreads', hs'⟩

/-! ### Whole runs -/

/-- A run puts the entries before a member. If the name of that is refused in the tree that they
leave, the run ends there. -/
theorem extract_eq_escape {s : Stream} {feed : Feed} {f : EscapeFault}
    (hopen : opened s = .ok feed) (hreads : Reads (.start feed) entries c)
    (hput : unpack destination none t .empty entries = (.ok report, t'))
    (hnext : c.nextMember = (.ok (some m), c'))
    (hname : t'.joinWithin destination m.name = .error f) :
    extract t destination s = (.error (.escape f), t') := by
  have hlisting : listing c = ((readEntry m c').1 :: (listing (readEntry m c').2).1,
      (listing (readEntry m c').2).2) := by rw [listing, hnext]
  rw [extract_eq, hopen]
  dsimp only
  rw [hreads.listing_eq, unpack_append, hput]
  dsimp only
  rw [hlisting, unpack]
  unfold putEntry
  rw [member_readEntry, hname]

/-- Unpacking stops at the first member whose name is refused, whatever kind of member it is, and
reports why it is refused. The name is judged in the tree that the members before it have left,
and the run leaves that tree: the same as a stream leaves that ends before that member, and the
same as a stream leaves that has anything else behind that member's header. -/
theorem extract_failsClosed {s : Stream} {feed : Feed} {before : List Entry} {f : EscapeFault}
    (hopen : opened s = .ok feed) (hbefore : Reads (.start feed) before c)
    (hput : unpack destination none t .empty before = (.ok report, t'))
    (hnext : c.nextMember = (.ok (some m), c'))
    (hname : t'.joinWithin destination m.name = .error f) :
    extract t destination s = (.error (.escape f), t') ∧
    (∀ shorter rest, opened shorter = .ok rest → rest.Whole →
      rest.bytes = feed.bytes.take c.next →
      extract t destination shorter = (.ok report, t')) ∧
    (∀ other rest, opened other = .ok rest → rest.Whole →
      feed.bytes.take c'.position <+: rest.bytes →
      extract t destination other = (.error (.escape f), t')) := by
  have hfaults := hbefore.faultless hput
  have hextent := (hbefore.position hfaults).2
  obtain ⟨hmember, -, hextent'⟩ := Cursor.position_nextMember hnext
  have hle := c.position_le_next
  -- Both the refused header and the end of the entries before it are in the stream.
  have hlength : c'.position ≤ feed.bytes.length := by
    simp only [Cursor.extent, Cursor.start] at hextent hextent'
    omega
  refine ⟨extract_eq_escape hopen hbefore hput hnext hname, ?_, ?_⟩
  · intro shorter rest hopen' hwhole hbytes
    have hstart : Cursor.SharesTo c.next (.start feed) (.start rest) :=
      .start hwhole (by omega) (hbytes ▸ List.prefix_rfl)
    obtain ⟨d, hreads, hs⟩ := hbefore.shares hfaults hnext hle hstart
    -- Nothing is behind the entries, so the archive ends.
    have hend : d.next = d.extent := by
      have hfrom := (hreads.position hfaults).2
      have hto := hs.extent
      have hall : (Cursor.start rest).extent = c.next := by
        simp only [Cursor.extent, Cursor.start, hbytes, List.length_take]
        omega
      rw [hs.next]
      omega
    obtain ⟨d', hnone⟩ := Cursor.nextMember_of_end hs.whole hend
    have hlisting : listing d = ([], none) := by rw [listing, hnone]
    rw [extract_eq, hopen']
    dsimp only
    rw [hreads.listing_eq, hlisting, List.append_nil]
    exact hput
  · intro other rest hopen' hwhole hbytes
    have hstart : Cursor.SharesTo c'.position (.start feed) (.start rest) :=
      .start hwhole hlength hbytes
    obtain ⟨d, hreads, hs⟩ := hbefore.shares hfaults hnext (Nat.le_trans hle hmember) hstart
    obtain ⟨d', hnext', -⟩ := hs.nextMember hnext (Nat.le_refl _)
    exact extract_eq_escape hopen' hreads hput hnext' hname

/-- A tree with an empty directory `d`. -/
def emptyDirectory : FileTree where
  nodes := [([[0x64]], .directory 0o755)]
  workdir := []

/-- The header of a directory `a`. -/
def harmless : Bytes := headerBlock [0x61] (.directory 0o755)

/-- The header of a directory `../x`. -/
def climbing : Bytes := headerBlock [0x2E, 0x2E, 0x2F, 0x78] (.directory 0o755)

/-- The first block of the stream is the header of a directory. -/
theorem isHeader_harmless : IsHeader harmless [0x61] (.directory 0o755) :=
  isHeader_headerBlock (by decide) _ (by decide) rfl (by decide)

/-- The second one is that of a member outside the destination. -/
theorem isHeader_climbing : IsHeader climbing [0x2E, 0x2E, 0x2F, 0x78] (.directory 0o755) :=
  isHeader_headerBlock (by decide) _ (by decide) rfl (by decide)

/-- A directory has no content: behind its header come the members after it. -/
theorem readEntry_of_directory {block text bytes : Bytes} {mode : Mode}
    (hheader : IsHeader block text (.directory mode)) (h : c.StandsBefore (block ++ bytes)) :
    ∃ c' c'', c.nextMember = (.ok (some ⟨⟨text⟩, .directory, mode, 0⟩), c') ∧
      readEntry ⟨⟨text⟩, .directory, mode, 0⟩ c' =
        (⟨⟨⟨text⟩, .directory, mode, 0⟩, [], none⟩, c'') ∧
      c''.StandsBefore bytes ∧ c'.position = c.next + blockSize ∧ c''.next = c'.position := by
  have hstands : c.StandsBefore (block ++ ((Node.directory mode).content ++ [] ++ bytes)) := h
  exact readEntry_of_isHeader hheader (by decide) (by simp [Node.content]) hstands

/-- A stream that starts with `a` is not compressed. -/
theorem carries_harmless (bytes : Bytes) :
    Carries (.ofBytes (harmless ++ bytes)) (harmless ++ bytes) := .ofBytes rfl

/-- Unpacking `a`, `../x` and then `b` leaves only `a`. So does a stream with just `a`, and one
that breaks off behind `../x`. -/
theorem climbing_failsClosed :
    extract emptyDirectory ⟨[0x64]⟩
        (.ofBytes (harmless ++ (climbing ++ headerBlock [0x62] (.directory 0o755)))) =
      (.error (.escape (.pathEscape ⟨[0x2E, 0x2E, 0x2F, 0x78]⟩ ⟨[0x64]⟩)),
        emptyDirectory.set [[0x64], [0x61]] (.directory 0o755)) ∧
    extract emptyDirectory ⟨[0x64]⟩ (.ofBytes harmless) =
      (.ok ⟨1, 0, 0, 0⟩, emptyDirectory.set [[0x64], [0x61]] (.directory 0o755)) ∧
    extract emptyDirectory ⟨[0x64]⟩ (.ofBytes (harmless ++ (climbing ++ [0x69]))) =
      (.error (.escape (.pathEscape ⟨[0x2E, 0x2E, 0x2F, 0x78]⟩ ⟨[0x64]⟩)),
        emptyDirectory.set [[0x64], [0x61]] (.directory 0o755)) := by
  obtain ⟨feed, hopen, hwhole, hbytes⟩ :=
    (carries_harmless (climbing ++ headerBlock [0x62] (.directory 0o755))).opened
  have hfirst : harmless.length = 512 := isHeader_harmless.length
  have hsecond : climbing.length = 512 := isHeader_climbing.length
  have hlength : feed.bytes.length < Text.wordLimit := by
    have hthird : (headerBlock [0x62] (.directory 0o755)).length = blockSize :=
      length_headerBlock (by decide) _
    rw [hbytes, List.length_append, List.length_append, hfirst, hsecond, hthird]
    decide
  have hstart : Cursor.StandsBefore feed.bytes (.start feed) := .start hwhole hlength
  rw [hbytes] at hstart
  -- Read by hand, for a stream of three blocks is too long to evaluate: the first header is put,
  -- the second has a name that is refused, and the cursor stands at byte 512 and then at 1024.
  obtain ⟨c₁, c, hmember, hentry, hrest, hpos₁, hnext₁⟩ :=
    readEntry_of_directory isHeader_harmless hstart
  obtain ⟨c', -, hrefused, -, -, hpos', -⟩ :=
    readEntry_of_directory isHeader_climbing hrest
  have hbefore : Reads (.start feed) [_] _ := .cons hmember .nil
  rw [hentry] at hbefore
  have hput : unpack ⟨[0x64]⟩ none emptyDirectory .empty
      [⟨⟨⟨[0x61]⟩, .directory, 0o755, 0⟩, [], none⟩] =
      (.ok ⟨1, 0, 0, 0⟩, emptyDirectory.set [[0x64], [0x61]] (.directory 0o755)) := by cbv
  have hname : (emptyDirectory.set [[0x64], [0x61]] (.directory 0o755)).joinWithin ⟨[0x64]⟩
      ⟨[0x2E, 0x2E, 0x2F, 0x78]⟩ = .error (.pathEscape ⟨[0x2E, 0x2E, 0x2F, 0x78]⟩ ⟨[0x64]⟩) := by
        cbv
  -- What is left is that the other two streams agree with this one as far as that.
  obtain ⟨hall, hshorter, hother⟩ := extract_failsClosed hopen hbefore hput hrefused hname
  have hcarries := carries_harmless []
  rw [List.append_nil] at hcarries
  obtain ⟨feed₂, hopen₂, hwhole₂, hbytes₂⟩ := hcarries.opened
  obtain ⟨feed₃, hopen₃, hwhole₃, hbytes₃⟩ := (carries_harmless (climbing ++ [0x69])).opened
  have hnext : c.next = 512 := by rw [hnext₁, hpos₁, Cursor.next_start]; rfl
  have hposition : c'.position = 1024 := by rw [hpos', hnext]; rfl
  refine ⟨hall, hshorter _ feed₂ hopen₂ hwhole₂ ?_, hother _ feed₃ hopen₃ hwhole₃ ?_⟩
  · rw [hbytes₂, hbytes, hnext, List.take_left' hfirst]
  · have htake : (harmless ++ (climbing ++ headerBlock [0x62] (.directory 0o755))).take 1024 =
        harmless ++ climbing := by
      rw [← List.append_assoc]
      exact List.take_left' (by rw [List.length_append, hfirst, hsecond])
    rw [hbytes₃, hbytes, hposition, htake, ← List.append_assoc]
    exact List.prefix_append _ _

end ImageBuild.Archive
