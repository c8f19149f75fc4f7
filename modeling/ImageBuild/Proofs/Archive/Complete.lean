import ImageBuild.Proofs.Archive.Directories

/-!
# `ImageBuild.Proofs.Archive.Complete`: nothing is cut off without a fault

A run that ends well has read a stream of whole members (`isArchiveOf_of_extract`), so it has
copied each file as far as its header, or a record in front of it, declares. A stream that ends
inside a member (`EndsInside`) does not consist of whole members and never gets that far.

* `extract_complete`: a run that ends well has written each file with all bytes that are declared,
  has counted all members and these bytes, and a stream that ends inside a member does not end
  well. A stream of whole members is not refused for the bytes that it has: it is unpacked as its
  members are.
-/

set_option autoImplicit false

namespace ImageBuild.Archive

open FileTree Tar Tar.Cursor

variable {t final : FileTree} {destination : Path} {report : Report} {e : Entry}
  {entries : List Entry}
  {feed : Feed} {s : Stream} {m : Member} {content bytes : Bytes}

/-! ### Streams that end inside a member -/

/-- The stream ends inside a member: behind whole members there is a part of another, neither
nothing nor all of it. -/
def EndsInside (s : Stream) : Prop :=
  ∃ feed entries tiles m content bytes part, opened s = .ok feed ∧ feed.bytes = tiles ++ part ∧
    Tiles entries tiles ∧ Spans m content bytes ∧ part <+: bytes ∧ part ≠ [] ∧ part ≠ bytes

/-- A whole archive does not end inside a member. -/
theorem IsArchiveOf.not_endsInside (h : IsArchiveOf feed entries) (hopen : opened s = .ok feed) :
    ¬ EndsInside s := by
  rintro ⟨feed', entries', tiles', m, content, bytes, part, hopen', hbytes', hinside⟩
  obtain ⟨htiles', hspans, hpart, hne, hproper⟩ := hinside
  cases hopen.symm.trans hopen'
  obtain ⟨tiles, tail, htiles, hbytes, hend⟩ := h
  exact htiles'.append_part_ne htiles hspans hpart hne hproper (hend.imp_left And.right)
    (hbytes'.symm.trans hbytes)

/-- A stream of one member that is cut off anywhere ends inside it. -/
theorem endsInside_take (hspans : Spans m content bytes) {n : Nat} (hpos : 0 < n)
    (hlt : n < bytes.length)
    (hplain : detectCompression ((bytes.take n).take headerWindow) = .none) :
    EndsInside (.ofBytes (bytes.take n)) := by
  obtain ⟨feed, hopen, -, hfeed⟩ := (Carries.ofBytes hplain).opened
  have hlength : (bytes.take n).length = n := List.length_take_of_le (Nat.le_of_lt hlt)
  refine ⟨feed, [], [], m, content, bytes, bytes.take n, hopen, hfeed, .nil, hspans,
    List.take_prefix n bytes, fun hnil => ?_, fun hall => ?_⟩
  · rw [hnil, List.length_nil] at hlength
    omega
  · rw [hall] at hlength
    omega

/-! ### Runs that end well -/

/-- A run that ends well has met no fault in the content of an entry. -/
theorem faultless_of_extract (h : extract t destination s = (.ok report, final)) :
    ∀ e ∈ entriesOf s, e.fault? = none := by
  obtain ⟨feed, -, hlisting⟩ := listing_of_extract h
  rw [← List.append_nil (entriesOf s)] at hlisting
  obtain ⟨c', hreads, -⟩ := listing_eq_append_iff.mp hlisting
  exact hreads.faultless ((extract_eq_unpack h t).symm.trans h)

/-- A stream that was unpacked without a fault consists of whole members. -/
theorem isArchiveOf_of_extract (h : extract t destination s = (.ok report, final)) :
    ∃ feed, opened s = .ok feed ∧ IsArchiveOf feed (entriesOf s) := by
  obtain ⟨feed, hopen, hlisting⟩ := listing_of_extract h
  exact ⟨feed, hopen,
    isArchiveOf_of_listing hlisting (faultless_of_extract h) (whole_of_opened hopen)⟩

/-- How many bytes the files among the entries declare. -/
def declaredBytes (entries : List Entry) : Nat :=
  ((entries.filter fun e => e.member.kind = .file).map fun e => e.member.size).sum

/-- The entries in front of a file were put, and then the file. The path that its name was joined
to leads to just what was read of it. -/
def IsWrittenAfter (t : FileTree) (destination : Path) (before : List Entry) (e : Entry) : Prop :=
  ∃ t₁ target t₂ report loc, IsJoinedAfter t destination before e t₁ target ∧
    unpack destination none t .empty (before ++ [e]) = (.ok report, t₂) ∧
    t₂.walk true target = .ok (.node loc (.file e.member.mode e.content))

/-- Each file is written with what was read of it. -/
theorem isWrittenAfter_of_unpack (hwf : t.WellFormed) {before after : List Entry}
    (h : unpack destination none t .empty (before ++ e :: after) = (.ok report, final))
    (hkind : e.member.kind = .file) : IsWrittenAfter t destination before e := by
  obtain ⟨report₁, t₁, hbefore, hrest⟩ := unpack_append_eq_ok_iff.mp h
  obtain ⟨report₂, t₂, hput, -⟩ := unpack_cons_eq_ok_iff.mp hrest
  have hwf₁ := (unpack_grows hwf hbefore).1
  have hboth : unpack destination none t .empty (before ++ [e]) = (.ok report₂, t₂) :=
    unpack_append_eq_ok_iff.mpr ⟨report₁, t₁, hbefore,
      unpack_cons_eq_ok_iff.mpr ⟨report₂, t₂, hput, rfl⟩⟩
  obtain ⟨target, hjoin, ⟨hother, -⟩ | ⟨-, -, ⟨loc, t₃, hopen, rfl⟩, -⟩ | ⟨hother, -⟩⟩ :=
    putEntry_cases hput
  · rw [hkind] at hother; cases hother
  · have hputAt := isPutAt_of_openTarget hwf₁ hopen e.content
    exact ⟨t₁, target, _, report₂, loc, ⟨⟨report₁, hbefore⟩, hjoin⟩, hboth,
      (hputAt.again _ _ _ (.refl _) hputAt.file).1⟩
  · rw [hkind] at hother; cases hother

/-- Nothing is cut off without a fault.

* A run that ends well has found whole members and the end of the archive behind them. It has
  counted all members, has written each file with as many bytes as are declared, and reports the
  sum of these.
* A stream that ends inside the headers, the content or the padding of a member is never unpacked
  without a fault.
* A stream of whole members that no fault ends is unpacked as its members are, one after the
  other. -/
theorem extract_complete (hwf : t.WellFormed) (destination : Path) (s : Stream) :
    (∀ report final, extract t destination s = (.ok report, final) →
      (∃ feed, opened s = .ok feed ∧ IsArchiveOf feed (entriesOf s)) ∧
      report.entries = (entriesOf s).length ∧ report.bytesWritten = declaredBytes (entriesOf s) ∧
      ∀ before e after, entriesOf s = before ++ e :: after → e.member.kind = .file →
        e.content.length = e.member.size ∧ IsWrittenAfter t destination before e) ∧
    (EndsInside s → ∀ report final, extract t destination s ≠ (.ok report, final)) ∧
    ∀ feed entries, opened s = .ok feed → feed.fault? = none →
      feed.bytes.length < Text.wordLimit →
      IsArchiveOf feed entries → extract t destination s =
        unpack destination none t .empty entries := by
  refine ⟨fun report final h => ?_, fun hinside report final h => ?_,
    fun feed entries hopen hfault hlimit harchive => ?_⟩
  · have hrun := (extract_eq_unpack h t).symm.trans h
    obtain ⟨feed, hopen, harchive⟩ := isArchiveOf_of_extract h
    have hlength : ∀ e ∈ entriesOf s, e.member.kind = .file →
        e.content.length = e.member.size := by
      obtain ⟨tiles, tail, htiles, -⟩ := harchive
      exact fun e he => htiles.length_content he
    obtain ⟨hcount, -, hsum⟩ := unpack_report hrun
    refine ⟨⟨feed, hopen, harchive⟩, by rw [hcount]; exact Nat.zero_add _, ?_, ?_⟩
    · -- The bytes that were read are as many as are declared, file by file.
      rw [hsum, declaredBytes, List.map_congr_left fun e he => ?_]
      · exact Nat.zero_add _
      · obtain ⟨hmem, hkind⟩ := List.mem_filter.mp he
        exact hlength e hmem (by simpa using hkind)
    · intro before e after hentries hkind
      rw [hentries] at hrun
      exact ⟨hlength e (by simp [hentries]) hkind, isWrittenAfter_of_unpack hwf hrun hkind⟩
  · obtain ⟨feed, hopen, harchive⟩ := isArchiveOf_of_extract h
    exact harchive.not_endsInside hopen hinside
  · rw [extract_of_opened hopen, harchive.listing_eq (whole_of_opened hopen hfault) hlimit]

/-! ### A size in a record -/

/-- A record that gives the member behind it the size 1. -/
def sizeRecord : Bytes := Utf8.encode "10 size=1\n"

/-- The header of the record, behind its checksum. -/
def recordBack : Bytes :=
  -- It is a file's header but for the type byte, which is the letter x.
  0x78 :: (headerBack (.file 0o644 sizeRecord)).tail

/-- The header of the record. -/
def recordBlock : Bytes :=
  headerFront [0x78] (.file 0o644 sizeRecord) ++
    (checksumField (headerFront [0x78] (.file 0o644 sizeRecord)) recordBack ++ recordBack)

/-- A file `a` of one byte, whose own header declares no bytes. -/
def resizedBytes : Bytes :=
  recordBlock ++ (sizeRecord ++ (List.replicate 502 0 ++ headerBlock [0x61] (.file 0o644 []))) ++
    ([1] ++ List.replicate 511 0)

/-- The record fills a block. -/
theorem length_recordBlock : recordBlock.length = blockSize := by
  unfold recordBlock recordBack
  rw [List.length_append, List.length_append, length_headerFront (by decide),
    length_checksumField,
    List.length_cons, List.length_tail, length_headerBack]
  rfl

set_option maxRecDepth 20000 in
/-- It is the header of an extension. -/
theorem isHeaderOf_recordBlock :
    IsHeaderOf .none ⟨recordBlock⟩ sizeRecord.length ∧ isExtension ⟨recordBlock⟩ = true ∧
      (Header.mk recordBlock).typeFlag = .pax :=
  ⟨⟨length_recordBlock, by decide, by cbv⟩, by decide, by decide⟩

set_option maxRecDepth 20000 in
/-- Behind the record the header of an empty file is that of a file of one byte. -/
theorem isHeaderOf_resized :
    IsHeaderOf (say .pax sizeRecord .none) ⟨headerBlock [0x61] (.file 0o644 [])⟩ 1 ∧
      memberOf ⟨headerBlock [0x61] (.file 0o644 [])⟩ 1 (say .pax sizeRecord .none) =
        (loneEntry 0o644).member :=
  ⟨⟨length_headerBlock (by decide) _, by decide, by cbv⟩, by cbv⟩

/-- The record and the header behind it describe the file as one of a single byte. -/
theorem spans_resizedBytes : Spans (loneEntry 0o644).member [1] resizedBytes := by
  obtain ⟨hrecord, hext, hflag⟩ := isHeaderOf_recordBlock
  have hheader : IsHeader (headerBlock [0x61] (.file 0o644 [])) [0x61] (.file 0o644 []) :=
    isHeader_headerBlock (by decide) _ (by decide) rfl (by decide)
  obtain ⟨hsized, hmember⟩ := isHeaderOf_resized
  have hheads := Heads.plain hsized hheader.isExtension_eq hheader.typeFlag_ne_sparse
  rw [hmember, ← hflag] at hheads
  have hpadding : sizeRecord.length + (List.replicate 502 (0 : UInt8)).length =
      padded sizeRecord.length := by
    rw [List.length_replicate]
    cbv
  have hall := Heads.extension hrecord hext (by rw [hflag]; rfl) hpadding hheads
  exact .mk hall rfl (by rw [List.length_replicate]; rfl)

/-- The stream is four blocks long. -/
theorem length_resizedBytes : resizedBytes.length = 2048 := by
  have hheader : (headerBlock [0x61] (.file 0o644 [])).length = blockSize :=
    length_headerBlock (by decide) _
  unfold resizedBytes
  simp only [List.length_append, length_recordBlock, hheader, List.length_replicate]
  rfl

/-- The bytes start with a name, and no envelope starts like that. -/
theorem detectCompression_resizedBytes {n : Nat} (hn : 0 < n) :
    detectCompression ((resizedBytes.take n).take headerWindow) = .none := by
  obtain ⟨rest, hrest⟩ : ∃ rest, resizedBytes = 0x78 :: rest := by
    unfold resizedBytes recordBlock headerFront nameField
    exact ⟨_, by simp only [List.append_assoc, List.cons_append]; rfl⟩
  obtain ⟨n, rfl⟩ := Nat.exists_eq_succ_of_ne_zero (Nat.ne_of_gt hn)
  rw [hrest]
  rfl

/-- Unpacking a file of one byte into `d`, whose size stands in a record in front of its header,
counts one member and one byte. No matter where this stream is cut off, it is not unpacked without
a fault. -/
theorem resizedBytes_complete :
    extract roomyTree ⟨[0x64]⟩ (.ofBytes resizedBytes) = (.ok ⟨0, 1, 0, 1⟩, filledTree 0o644) ∧
    declaredBytes (entriesOf (.ofBytes resizedBytes)) = 1 ∧
    IsWrittenAfter roomyTree ⟨[0x64]⟩ [] (loneEntry 0o644) ∧
    ∀ n, 0 < n → n < resizedBytes.length → EndsInside (.ofBytes (resizedBytes.take n)) ∧
      ∀ report final, extract roomyTree ⟨[0x64]⟩ (.ofBytes (resizedBytes.take n)) ≠
        (.ok report, final) := by
  have hwf : roomyTree.WellFormed := by decide
  have hplain : detectCompression (resizedBytes.take headerWindow) = .none := by
    have hfirst := detectCompression_resizedBytes (by decide : 0 < headerWindow)
    rwa [List.take_take, Nat.min_self] at hfirst
  obtain ⟨feed, hopen, hwhole, hfeed⟩ := (Carries.ofBytes hplain).opened
  -- The record, its block of content, the header and the block of the file are one member.
  have harchive : IsArchiveOf feed [loneEntry 0o644] :=
    ⟨_, [], .cons spans_resizedBytes .nil, by rw [hfeed, List.append_nil, List.append_nil],
      Or.inl ⟨hwhole.fault?_eq_none, rfl⟩⟩
  have hlimit : feed.bytes.length < Text.wordLimit := by
    rw [hfeed, length_resizedBytes]
    decide
  have hentries : entriesOf (.ofBytes resizedBytes) = [loneEntry 0o644] := by
    rw [entriesOf_of_opened hopen, harchive.listing_eq hwhole hlimit]
  have hrun : extract roomyTree ⟨[0x64]⟩ (.ofBytes resizedBytes) =
      (.ok ⟨0, 1, 0, 1⟩, filledTree 0o644) := by
    rw [(extract_complete hwf _ _).2.2 feed _ hopen hwhole.fault?_eq_none hlimit harchive]
    cbv
  obtain ⟨-, -, hsum, hfiles⟩ := (extract_complete hwf _ _).1 _ _ hrun
  refine ⟨hrun, hsum.symm, (hfiles [] _ [] hentries rfl).2, fun n hpos hlt => ?_⟩
  have hcut := endsInside_take spans_resizedBytes hpos hlt (detectCompression_resizedBytes hpos)
  exact ⟨hcut, (extract_complete hwf _ _).2.1 hcut⟩

end ImageBuild.Archive
