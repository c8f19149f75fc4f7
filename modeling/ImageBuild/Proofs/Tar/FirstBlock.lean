import ImageBuild.Proofs.Tar.Sharing

/-!
# `ImageBuild.Proofs.Tar.FirstBlock`: what the first block says about the first member

A reader that sees one block of a tar stream knows the first member only if its header is all that
there is to know. `Describes h m` says this of a header: it can be read, it is no extension
header, and if it is a sparse one, its map is complete and fits. `GoesOn h` says that more has to
be read behind the header before the member is known.

* `nextMember_piece_iff`: from a first block that does not go on, the first member is found if the
  header describes it, and behind the block nothing is looked at.
* `two_blocks_of_goesOn`: a header that goes on is followed by another block before a member is
  found. So in the block alone it leads to none.
* `nextMember_longName`: a long name is one such header. The member is found behind it, under that
  name.
-/

set_option autoImplicit false

namespace ImageBuild.Tar

/-- The header alone describes the member. -/
structure Describes (h : Header) (m : Member) : Prop where
  notZero : h.isZero = false
  size : Cursor.contentSize h .none = .ok m.size
  /-- The content can be padded, and there is room for it behind the header. -/
  room : m.size + (blockSize - 1) < Text.wordLimit ∧
    blockSize + Cursor.padded m.size < Text.wordLimit
  notExtension : Cursor.isExtension h = false
  /-- The map of a sparse member is complete and fits the sizes. -/
  sparse : h.typeFlag = .sparse → h.format = .gnu ∧ SparseMap.headerContinues h = false ∧
    ∃ map, (SparseMap.mk m.size 0 m.size).addHeader h = .ok map ∧ map.check h = .ok ()
  member : m = Cursor.memberOf h m.size .none

/-- More has to be read behind the header: it is the header of an extension member, or the map of
a sparse member goes on in the next block. -/
def GoesOn (h : Header) : Prop :=
  Cursor.isExtension h = true ∨ h.typeFlag = .sparse ∧ SparseMap.headerContinues h = true

instance (h : Header) : Decidable (GoesOn h) := inferInstanceAs (Decidable (_ ∨ _))

/-- A header that describes its member does not go on. -/
theorem Describes.not_goesOn {h : Header} {m : Member} (hd : Describes h m) : ¬ GoesOn h := by
  rintro (hext | ⟨hflag, hcontinues⟩)
  · rw [hd.notExtension] at hext
    cases hext
  · rw [(hd.sparse hflag).2.1] at hcontinues
    cases hcontinues

namespace Cursor

variable {c c₁ c' : Cursor} {said : Extensions} {h : Header} {m : Member} {size : Nat}
  {next : Feed}

/-! ### Reading the first block -/

/-- Where the next header is reached nothing is skipped. -/
theorem skip_self (hreached : c.ahead = 0) : c.skip = (.ok (), c) := by
  refine skip_eq_ok_iff.mpr ⟨[], ?_⟩
  unfold take Feed.readUpTo
  rw [hreached, Feed.readInto, if_pos rfl]
  rfl

/-- The distance from one place to another. -/
theorem ahead_mk {p q : Nat} (hle : p ≤ q) (hlimit : q - p < Text.wordLimit) (feed : Feed) :
    (mk feed p (UInt64.ofNat q)).ahead = q - p := by
  unfold Text.wordLimit at hlimit
  unfold ahead
  simp only [UInt64.toNat_sub, UInt64.toNat_ofNat']
  omega

/-- Counting a block where the word points to a place. -/
theorem countBlock_mk (feed : Feed) (position p : Nat) :
    (mk feed position (UInt64.ofNat p)).countBlock =
      ⟨feed, position, UInt64.ofNat (p + blockSize)⟩ := by
  rw [countBlock, UInt64.ofNat_add]

/-- Bytes that come as a piece of their own are taken, and nothing else is. -/
theorem take_piece {b : Bytes} {n unit : Nat} (hn : 0 < n) (hlen : b.length = n)
    (hunit : n ≤ unit) (next : Feed) (position : Nat) (there : UInt64) :
    (mk (.piece b false next) position there).take unit n =
      (b, .full, ⟨next, position + n, there⟩) := by
  unfold take
  rw [Feed.readUpTo_piece hn hlen hunit]
  simp [hlen]

/-- A header that comes as a block of its own is found if it can be read, wherever it is
reached. -/
theorem header_piece_iff {p : Nat} (hp : p + blockSize < Text.wordLimit)
    (hskip : c.skip = (.ok (), ⟨.piece h.block false next, p, UInt64.ofNat p⟩))
    (hlen : h.block.length = blockSize) {h' : Header} :
    c.header said = (.ok (some (h', size)), c₁) ↔
      h = h' ∧ h.isZero = false ∧ contentSize h said = .ok size ∧
        size + (blockSize - 1) < Text.wordLimit ∧ p + blockSize + padded size < Text.wordLimit ∧
        c₁ = ⟨next, p + blockSize, UInt64.ofNat (p + blockSize + padded size)⟩ := by
  have hblock : (mk (.piece h.block false next) p (UInt64.ofNat p)).readBlock =
      (.ok (some h.block), ⟨next, p + blockSize, UInt64.ofNat p⟩) :=
    readBlock_eq_some_iff.mpr (take_piece (by decide) hlen (Nat.le_refl _) next p _)
  have hword : (UInt64.ofNat (p + blockSize)).toNat = p + blockSize :=
    UInt64.toNat_ofNat_of_lt' hp
  rw [header_eq_some_iff]
  constructor
  · rintro ⟨a, b, hskip', hblock', hzero, hsize, hadvance⟩
    cases hskip.symm.trans hskip'
    rw [hblock] at hblock'
    obtain ⟨block'⟩ := h'
    cases hblock'
    rw [countBlock_mk] at hadvance
    obtain ⟨hround, hsum, rfl⟩ := advance_eq_ok_iff.mp hadvance
    rw [hword] at hsum
    exact ⟨rfl, hzero, hsize, hround, hsum, by rw [UInt64.ofNat_add (p + blockSize)]⟩
  · rintro ⟨rfl, hzero, hsize, hround, hsum, rfl⟩
    refine ⟨_, _, hskip, hblock, hzero, hsize, ?_⟩
    rw [countBlock_mk]
    refine advance_eq_ok_iff.mpr ⟨hround, ?_, by rw [UInt64.ofNat_add (p + blockSize)]⟩
    rw [hword]
    exact hsum

/-- At the start of a stream no header was before, and nothing is skipped. -/
theorem header_start_iff (hlen : h.block.length = blockSize) {h' : Header} :
    (start (.piece h.block false next)).header said = (.ok (some (h', size)), c₁) ↔
      h = h' ∧ h.isZero = false ∧ contentSize h said = .ok size ∧
        size + (blockSize - 1) < Text.wordLimit ∧ blockSize + padded size < Text.wordLimit ∧
        c₁ = ⟨next, blockSize, UInt64.ofNat (blockSize + padded size)⟩ := by
  have hskip : (start (.piece h.block false next)).skip =
      (.ok (), start (.piece h.block false next)) :=
    skip_self (ahead_start _)
  simpa only [Nat.zero_add] using header_piece_iff (by decide) hskip hlen

/-! ### A first block that is enough -/

/-- Where a header is found that describes its member, the member is. Extensions before it can
only say something about its name and size. -/
theorem finds_of_describes (hd : Describes h m)
    (hheader : c.header said = (.ok (some (h, m.size)), c₁)) :
    Finds said c (memberOf h m.size said) c₁ := by
  by_cases hflag : h.typeFlag = .sparse
  · obtain ⟨hgnu, hcontinues, map, hadd, hcheck⟩ := hd.sparse hflag
    refine .sparse hheader hd.notExtension hflag
      (sparseMap_eq_ok_iff.mpr ⟨hgnu, map, map, hadd, ?_, hcheck⟩)
    rw [hcontinues, if_neg (by simp)]
  · exact .plain hheader hd.notExtension hflag

/-- If the first block does not go on, the first member is what its header describes, and reading
stops behind the block. -/
theorem nextMember_piece_iff (hlen : h.block.length = blockSize) (hgoes : ¬ GoesOn h) :
    (start (.piece h.block false next)).nextMember = (.ok (some m), c') ↔
      Describes h m ∧ c' = ⟨next, blockSize, UInt64.ofNat (blockSize + padded m.size)⟩ := by
  have hext : isExtension h = false := by
    rw [← Bool.not_eq_true]
    exact fun hext => hgoes (Or.inl hext)
  rw [nextMember, nextAfter_eq_some_iff]
  constructor
  · intro hfinds
    cases hfinds with
    | plain hheader _ hflag =>
      obtain ⟨rfl, hzero, hsize, hlt₁, hlt₂, rfl⟩ := (header_start_iff hlen).mp hheader
      exact ⟨⟨hzero, hsize, ⟨hlt₁, hlt₂⟩, hext, fun hsparse => absurd hsparse hflag, rfl⟩, rfl⟩
    | sparse hheader _ hflag hmap =>
      obtain ⟨rfl, hzero, hsize, hlt₁, hlt₂, rfl⟩ := (header_start_iff hlen).mp hheader
      obtain ⟨hgnu, map, map', hadd, hmore, hcheck⟩ := sparseMap_eq_ok_iff.mp hmap
      -- The map does not go on, so it is the header's own and nothing is read for it.
      have hcontinues : SparseMap.headerContinues h = false := by
        rw [← Bool.not_eq_true]
        exact fun hcontinues => hgoes (Or.inr ⟨hflag, hcontinues⟩)
      rw [hcontinues, if_neg (by simp)] at hmore
      cases hmore
      exact ⟨⟨hzero, hsize, ⟨hlt₁, hlt₂⟩, hext, fun _ =>
        ⟨hgnu, hcontinues, map, hadd, hcheck⟩, rfl⟩,
        rfl⟩
    | extension hheader hext' =>
      obtain ⟨rfl, -⟩ := (header_start_iff hlen).mp hheader
      exact absurd (Or.inl hext') hgoes
  · rintro ⟨hd, rfl⟩
    rw [hd.member]
    exact finds_of_describes hd
      ((header_start_iff hlen).mpr ⟨rfl, hd.notZero, hd.size, hd.room.1, hd.room.2, rfl⟩)

/-! ### A first block that is not enough -/

/-- The map of a sparse member that goes on is read from at least one block more. -/
theorem size_sparseExtensions_lt {map map' : SparseMap}
    (hmap : c.sparseExtensions map = (.ok map', c')) :
      c'.feed.size + blockSize ≤ c.feed.size := by
  rw [sparseExtensions] at hmap
  rcases hblock : c.readBlock with ⟨f | _ | block, c₁⟩
  · rw [hblock] at hmap
    cases hmap
  · rw [hblock] at hmap
    cases hmap
  -- The first block counts, whatever those behind it are.
  have hread := size_readBlock_lt c hblock
  rw [hblock] at hmap
  dsimp only at hmap
  cases hadd : map.addExtension block with
  | error f =>
    rw [hadd] at hmap
    cases hmap
  | ok map₁ =>
    rw [hadd] at hmap
    dsimp only at hmap
    split at hmap
    · have hmore := size_sparseExtensions_le map₁ c₁.countBlock
      rw [hmap, feed_countBlock] at hmore
      exact Nat.le_trans (Nat.add_le_add_right hmore _) hread
    · cases hmap
      rw [feed_countBlock]
      exact hread

/-- A header that goes on is followed by another block before a member is found. -/
theorem two_blocks_of_goesOn (hnext : c.nextMember = (.ok (some m), c'))
    (hheader : c.header .none = (.ok (some (h, size)), c₁)) (hgoes : GoesOn h) :
    2 * blockSize ≤ c.feed.size := by
  have hfirst := size_header_lt hheader
  rw [nextMember, nextAfter_eq_some_iff] at hnext
  cases hnext with
  | plain hheader' hext hflag =>
    cases hheader.symm.trans hheader'
    rcases hgoes with hext' | ⟨hflag', -⟩
    · rw [hext] at hext'; cases hext'
    · exact absurd hflag' hflag
  | sparse hheader' hext hflag hmap =>
    cases hheader.symm.trans hheader'
    rcases hgoes with hext' | ⟨-, hcontinues⟩
    · rw [hext] at hext'; cases hext'
    · -- The map goes on in the next block.
      obtain ⟨-, map, map', -, hmore, -⟩ := sparseMap_eq_ok_iff.mp hmap
      rw [if_pos hcontinues] at hmore
      have hsecond := size_sparseExtensions_lt hmore
      omega
  | extension hheader' _ _ hdata hmore =>
    -- Behind the data of the extension there is another header.
    cases hheader.symm.trans hheader'
    have hsecond := size_extensionData size c₁
    rw [hdata] at hsecond
    dsimp only at hsecond
    have hthird := size_nextAfter_lt _ _ hmore.nextAfter
    omega

/-- From a block alone a first member is found exactly if its header describes one. -/
theorem exists_nextMember_block_iff (hlen : h.block.length = blockSize)
    {fault : Option StreamFault} {urgent : Bool} :
    (∃ m c', (start (.piece h.block false (.ended fault urgent))).nextMember =
      (.ok (some m), c')) ↔
      ∃ m, Describes h m := by
  constructor
  · rintro ⟨m, c', hfound⟩
    -- If the header went on, the member would take two blocks, and there is one.
    refine ⟨m, ((nextMember_piece_iff hlen fun hgoes => ?_).mp hfound).1⟩
    obtain ⟨h', size, c₁, hheader⟩ : ∃ h' size c₁,
        (start (.piece h.block false (.ended fault urgent))).header .none =
          (.ok (some (h', size)), c₁) := by
      cases nextAfter_eq_some_iff.mp hfound with
      | plain hheader | sparse hheader | extension hheader => exact ⟨_, _, _, hheader⟩
    obtain ⟨rfl, -⟩ := (header_start_iff hlen).mp hheader
    have htwo := two_blocks_of_goesOn hfound hheader hgoes
    simp [start, Feed.size, hlen, blockSize] at htwo
  · rintro ⟨m, hd⟩
    exact ⟨m, _, (nextMember_piece_iff hlen hd.not_goesOn).mpr ⟨hd, rfl⟩⟩

/-! ### A name that comes before the header -/

/-- A long name and its padding come in front of a header. The member that this header describes
is found, under that name. -/
theorem nextMember_longName (named : Header) (name padding : Bytes) (next : Feed)
    (hlen : named.block.length = blockSize) (hzero : named.isZero = false)
    (hext : isExtension named = true) (hflag : named.typeFlag = .longName)
    (hsize : contentSize named .none = .ok name.length)
    (hname : 0 < name.length ∧ name.length ≤ copyUnit)
    (hpadding : 0 < padding.length ∧ name.length + padding.length = padded name.length)
    (hlen' : h.block.length = blockSize) (hd : Describes h m)
    (hroom : m.size + 16384 < Text.wordLimit) :
    ∃ c', (start (.piece named.block false (.piece name false (.piece padding false
        (.piece h.block false next))))).nextMember =
      (.ok (some { m with name := ⟨if name.getLast? == some 0 then name.dropLast else name⟩ }),
        c') := by
  -- The header behind the name is so near to the start that only its own content can be too
  -- large.
  have hpadded : padded name.length ≤ 8192 + 511 := by
    have hunit : copyUnit = 8192 := rfl
    unfold padded blockSize
    omega
  have hcontent : padded m.size ≤ m.size + 511 := by
    unfold padded blockSize
    omega
  have hblock : blockSize = 512 := rfl
  have hfirst : (start (.piece named.block false (.piece name false (.piece padding false
      (.piece h.block false next))))).header .none = (.ok (some (named, name.length)), _) :=
    (header_start_iff hlen).mpr ⟨rfl, hzero, hsize, by omega, by omega, rfl⟩
  have hdata := extensionData_eq_ok_iff.mpr ⟨.full, take_piece hname.1 rfl hname.2
    (.piece padding false (.piece h.block false next)) blockSize
    (UInt64.ofNat (blockSize + padded name.length)), by simp⟩
  -- What is skipped is the padding, and it ends where the next header starts.
  have hskip : (mk (.piece padding false (.piece h.block false next)) (blockSize + name.length)
      (UInt64.ofNat (blockSize + padded name.length))).skip =
      (.ok (), ⟨.piece h.block false next, blockSize + padded name.length,
        UInt64.ofNat (blockSize + padded name.length)⟩) := by
    have hwanted : blockSize + padded name.length - (blockSize + name.length) =
        padding.length := by
      omega
    refine skip_eq_ok_iff.mpr ⟨padding, ?_⟩
    rw [ahead_mk (by omega) (by omega), hwanted,
      take_piece hpadding.1 rfl (by unfold skipUnit; omega), ← hpadding.2, Nat.add_assoc]
  have hsizeSaid : contentSize h (say .longName name .none) = .ok m.size := hd.size
  have hsecond := (header_piece_iff (by omega) hskip hlen').mpr
    ⟨rfl, hd.notZero, hsizeSaid, by omega, by omega, rfl⟩
  have hmember : memberOf h m.size (say .longName name .none) =
      { m with name := ⟨if name.getLast? == some 0 then name.dropLast else name⟩ } :=
    congrArg (fun found : Member => { found with
      name := ⟨if name.getLast? == some 0 then name.dropLast else name⟩ }) hd.member.symm
  have hfound := finds_of_describes hd hsecond
  rw [hmember, ← hflag] at hfound
  refine ⟨_, nextAfter_eq_some_iff.mpr (.extension hfirst hext ?_ hdata hfound)⟩
  rw [hflag]
  rfl

end Cursor
end ImageBuild.Tar
