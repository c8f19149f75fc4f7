import ImageBuild.Proofs.Stream.Reading
import ImageBuild.Tar.Member

/-!
# `ImageBuild.Proofs.Tar.Sharing`: members depend on nothing behind them

Reading the next member takes bytes off a stream up to a position, and what comes after that
position cannot matter. `Cursor.SharesTo p c d` says that two cursors stand at the same place and
that `d` has the bytes that `c` has, as far as position `p`. A reading of `c` that comes no
further than `p` is then one of `d`: `SharesTo.take` for bytes, `SharesTo.header` for headers,
`SharesTo.nextMember` for members.

The stream behind `c` may end with a fault later on. Nothing is asked of it but the bytes that it
returned. `Cursor.position_nextMember` is where a member's content ends, which is before the next
header starts.

How far away the next header is follows from two words, and one lemma says how it changes where
they do (`ahead_of_moved`). It asks for a distance that a word can hold and not for places that
one can, so what it comes to holds behind a word that has wrapped around as well.
-/

set_option autoImplicit false

namespace ImageBuild.Tar.Cursor

variable {c c' d : Cursor} {p : Nat} {said : Extensions}

/-! ### How far away the next header is -/

/-- The next header does not stand behind the position. -/
theorem position_le_next (c : Cursor) : c.position ≤ c.next := Nat.le_add_right _ _

/-- What is left to skip fits in a word. -/
theorem ahead_lt (c : Cursor) : c.ahead < Text.wordLimit := UInt64.toNat_lt _

/-- The word that counts where the next header starts is what is left of the place in 64 bits. -/
theorem toNat_target (c : Cursor) : c.target.toNat = c.next % Text.wordLimit := by
  have hword := c.target.toNat_lt
  unfold next ahead Text.wordLimit
  rw [UInt64.toNat_sub, UInt64.toNat_ofNat']
  omega

/-- At the start nothing is left to skip. -/
@[simp]
theorem ahead_start (feed : Feed) : (start feed).ahead = 0 := by simp [ahead, start]

/-- At the start the next header stands at 0. -/
@[simp]
theorem next_start (feed : Feed) : (start feed).next = 0 := by
  rw [next, ahead_start]
  rfl

/-- The reading goes on, and the next header is moved: both change the distance by as much, as
long as the reading does not pass the header. -/
theorem ahead_of_moved {k n : Nat} (hposition : c'.position = c.position + k)
    (htarget : c'.target = c.target + UInt64.ofNat n) (hk : k ≤ c.ahead + n)
    (hlimit : c.ahead + n - k < Text.wordLimit) : c'.ahead = c.ahead + n - k := by
  have hword := c.target.toNat_lt
  unfold Text.wordLimit at hlimit
  unfold ahead at hk hlimit ⊢
  rw [hposition, htarget]
  simp only [UInt64.toNat_sub, UInt64.toNat_add, UInt64.toNat_ofNat'] at hk hlimit ⊢
  omega

/-- Reading on brings the next header nearer. -/
theorem ahead_of_read {k : Nat} (hposition : c'.position = c.position + k)
    (htarget : c'.target = c.target) (hk : k ≤ c.ahead) : c'.ahead = c.ahead - k := by
  have htarget : c'.target = c.target + UInt64.ofNat 0 := htarget.trans (UInt64.add_zero _).symm
  have hlimit := c.ahead_lt
  exact ahead_of_moved hposition htarget hk (by omega)

/-- A block that is read and counted leaves the next header as far away as it was. -/
theorem ahead_countBlock (hposition : c'.position = c.position + blockSize)
    (htarget : c'.target = c.target) : c'.countBlock.ahead = c.ahead := by
  have hlimit := c.ahead_lt
  have hcounted : c'.countBlock.target = c.target + UInt64.ofNat blockSize := by
    rw [countBlock, htarget]
  have hmoved := ahead_of_moved ((position_countBlock c').trans hposition) hcounted
    (Nat.le_add_left _ _) (by omega)
  omega

/-! ### Where readings end -/

/-- A reading that meets no fault moves the cursor behind the bytes that it returns, which come
next. It returns all the bytes that are wanted, or nothing is left. -/
theorem take_spec {unit : Nat} (hunit : 0 < unit) {n : Nat} {b : Bytes} {ending : Ending}
    (h : c.take unit n = (b, ending, c')) (hending : ∀ f, ending ≠ .failed f) :
    b ++ c'.feed.bytes <+: c.feed.bytes ∧ c'.position = c.position + b.length ∧
      c'.target = c.target ∧ b.length ≤ n ∧ (ending = .full → b.length = n) ∧
      (ending = .short → c'.feed.bytes = []) := by
  unfold take at h
  cases h
  obtain ⟨hbytes, hlen, hfull, hshort⟩ :=
    Feed.readUpTo_spec hunit (Eq.refl (c.feed.readUpTo unit n)) hending
  exact ⟨hbytes, rfl, rfl, hlen, hfull, hshort⟩

/-- Of a stream that ends without a fault the next bytes are read, as many as are wanted or as
there are. -/
theorem take_of_whole (h : c.feed.Whole) {unit : Nat} (hunit : 0 < unit) (n : Nat) :
    ∃ c', c.take unit n =
        (c.feed.bytes.take n, if n ≤ c.feed.bytes.length then .full else .short, c') ∧
      c'.feed.Whole ∧ c'.feed.bytes = c.feed.bytes.drop n := by
  obtain ⟨after, hread, hwhole, hbytes⟩ := h.readUpTo_eq hunit n
  unfold take
  rw [hread]
  exact ⟨_, rfl, hwhole, hbytes⟩

/-- Skipping succeeds exactly if all that is to be skipped is there. -/
theorem skip_eq_ok_iff :
    c.skip = (.ok (), c') ↔ ∃ b, c.take skipUnit c.ahead = (b, .full, c') := by
  unfold skip
  rcases c.take skipUnit c.ahead with ⟨b, _ | _ | f, c₁⟩ <;> simp

/-- A block is read exactly if all of it is there. -/
theorem readBlock_eq_some_iff {block : Bytes} :
    c.readBlock = (.ok (some block), c') ↔ c.take blockSize blockSize = (block, .full, c') := by
  unfold readBlock
  rcases c.take blockSize blockSize with ⟨_ | ⟨byte, bytes⟩, _ | _ | f, c₁⟩ <;> simp

/-- The next position can be set exactly if no sum on the way wraps. -/
theorem advance_eq_ok_iff {size : Nat} :
    c.advance size = .ok c' ↔
      size + (blockSize - 1) < Text.wordLimit ∧ c.target.toNat + padded size < Text.wordLimit ∧
        c' = { c with target := c.target + UInt64.ofNat (padded size) } := by
  unfold advance
  by_cases hround : Text.wordLimit ≤ size + (blockSize - 1)
  · rw [if_pos hround]
    simp only [reduceCtorEq, false_iff]
    omega
  · rw [if_neg hround]
    by_cases hsum : Text.wordLimit ≤ c.target.toNat + padded size
    · rw [if_pos hsum]
      simp only [reduceCtorEq, false_iff]
      omega
    · rw [if_neg hsum, Except.ok.injEq]
      constructor
      · rintro rfl
        exact ⟨by omega, by omega, rfl⟩
      · rintro ⟨-, -, rfl⟩
        rfl

/-- Where the next header has been reached, the one after it is moved as far away as its content
asks. -/
theorem ahead_advance {size : Nat} (h : c.advance size = .ok c') (hreached : c.ahead = 0) :
    c'.ahead = padded size := by
  obtain ⟨-, hsum, rfl⟩ := advance_eq_ok_iff.mp h
  have hmoved : ({ c with target := c.target + UInt64.ofNat (padded size) } : Cursor).ahead =
      c.ahead + padded size - 0 :=
    ahead_of_moved (Nat.add_zero _).symm rfl (Nat.zero_le _) (by omega)
  omega

/-- All that happens when a header is found. -/
theorem header_eq_some_iff {h : Header} {size : Nat} :
    c.header said = (.ok (some (h, size)), c') ↔
      ∃ c₁ c₂, c.skip = (.ok (), c₁) ∧ c₁.readBlock = (.ok (some h.block), c₂) ∧
        h.isZero = false ∧ contentSize h said = .ok size ∧
        advance size c₂.countBlock = .ok c' := by
  constructor
  · -- One case for each exit of the reading. Only the last finds a header.
    intro heq
    unfold header at heq
    rcases hskip : c.skip with ⟨f | ⟨⟩, c₁⟩
    · rw [hskip] at heq
      cases heq
    rw [hskip] at heq
    dsimp only at heq
    rcases hblock : c₁.readBlock with ⟨f | _ | block, c₂⟩
    · rw [hblock] at heq
      cases heq
    · rw [hblock] at heq
      cases heq
    rw [hblock] at heq
    dsimp only at heq
    by_cases hzero : (Header.mk block).isZero = true
    · rw [if_pos hzero] at heq
      cases heq
    rw [if_neg hzero] at heq
    cases hsize : contentSize ⟨block⟩ said with
    | error f =>
      rw [hsize] at heq
      cases heq
    | ok declared =>
      rw [hsize] at heq
      dsimp only at heq
      cases hadvance : advance declared c₂.countBlock with
      | error f =>
        rw [hadvance] at heq
        cases heq
      | ok c₃ =>
        rw [hadvance] at heq
        cases heq
        exact ⟨c₁, c₂, rfl, hblock, by simpa using hzero, hsize, hadvance⟩
  · rintro ⟨c₁, c₂, hskip, hblock, hzero, hsize, hadvance⟩
    unfold header
    rw [hskip]
    dsimp only
    rw [hblock]
    dsimp only
    rw [if_neg (by simp [hzero]), hsize]
    dsimp only
    rw [hadvance]

/-- The data of an extension member may be short, but must not fail. -/
theorem extensionData_eq_ok_iff {size : Nat} {data : Bytes} :
    c.extensionData size = (.ok data, c') ↔
      ∃ ending, c.take copyUnit size = (data, ending, c') ∧ ∀ f, ending ≠ .failed f := by
  unfold extensionData
  rcases c.take copyUnit size with ⟨b, ending, c₁⟩
  cases ending with
  | failed f => simp
  | full | short =>
    constructor
    · intro h; cases h; exact ⟨_, rfl, by simp⟩
    · rintro ⟨_, h, -⟩; cases h; rfl

/-- Content is padded to at least its size. -/
theorem le_padded (size : Nat) : size ≤ padded size := by
  unfold padded blockSize
  omega

/-! ### Positions -/

/-- Where the stream ends, as it looks from here. A fault can make it end earlier. -/
def extent (c : Cursor) : Nat := c.position + c.feed.bytes.length

/-- A reading without a fault does not look beyond the end. -/
theorem extent_take_le {unit : Nat} (hunit : 0 < unit) {n : Nat} {b : Bytes} {ending : Ending}
    (h : c.take unit n = (b, ending, c')) (hending : ∀ f, ending ≠ .failed f) :
    c'.extent ≤ c.extent := by
  obtain ⟨hbytes, hpos, -⟩ := take_spec hunit h hending
  have hlen := hbytes.length_le
  rw [List.length_append] at hlen
  unfold extent
  omega

/-- Counting a block does not change where the feed ends. -/
@[simp]
theorem extent_countBlock (c : Cursor) : c.countBlock.extent = c.extent := by
  unfold extent
  rw [feed_countBlock, position_countBlock]

/-- Skipping ends where the next header starts. -/
theorem position_skip (h : c.skip = (.ok (), c')) :
    c'.position = c.next ∧ c'.ahead = 0 ∧ c'.extent ≤ c.extent := by
  obtain ⟨b, htake⟩ := skip_eq_ok_iff.mp h
  obtain ⟨-, hpos, htarget, -, hfull, -⟩ := take_spec (by decide) htake (by simp)
  rw [hfull rfl] at hpos
  have hahead := ahead_of_read hpos htarget (Nat.le_refl _)
  exact ⟨hpos, by omega, extent_take_le (by decide) htake (by simp)⟩

/-- Reading a block leaves the next header where it is. -/
theorem target_readBlock {block : Bytes} (h : c.readBlock = (.ok (some block), c')) :
    c'.target = c.target :=
  (take_spec (by decide) (readBlock_eq_some_iff.mp h) (by simp)).2.2.1

/-- A block that is read and counted moves the reading and the next header alike. -/
theorem position_readBlock {block : Bytes} (h : c.readBlock = (.ok (some block), c')) :
    c'.countBlock.position = c.position + blockSize ∧ c'.countBlock.ahead = c.ahead ∧
      c'.countBlock.extent ≤ c.extent := by
  have htake := readBlock_eq_some_iff.mp h
  obtain ⟨-, hpos, htarget, -, hfull, -⟩ := take_spec (by decide) htake (by simp)
  rw [hfull rfl] at hpos
  rw [position_countBlock, extent_countBlock]
  exact ⟨hpos, ahead_countBlock hpos htarget, extent_take_le (by decide) htake (by simp)⟩

/-- Behind a header comes the content, and behind that the next header. -/
theorem position_header {h : Header} {size : Nat}
    (heq : c.header said = (.ok (some (h, size)), c')) :
    c'.position = c.next + blockSize ∧ c'.ahead = padded size ∧ c'.extent ≤ c.extent := by
  obtain ⟨c₁, c₂, hskip, hblock, -, -, hadvance⟩ := header_eq_some_iff.mp heq
  obtain ⟨hpos₁, hahead₁, hextent₁⟩ := position_skip hskip
  obtain ⟨hpos₂, hahead₂, hextent₂⟩ := position_readBlock hblock
  have hahead := ahead_advance hadvance (hahead₂.trans hahead₁)
  obtain ⟨-, -, rfl⟩ := advance_eq_ok_iff.mp hadvance
  rw [hpos₁] at hpos₂
  exact ⟨hpos₂, hahead, Nat.le_trans hextent₂ hextent₁⟩

/-- The data of an extension member bring the next header nearer, if they are before it. -/
theorem position_extensionData {size : Nat} {data : Bytes}
    (h : c.extensionData size = (.ok data, c')) (hroom : size ≤ c.ahead) :
    c.position ≤ c'.position ∧ c'.position ≤ c.position + size ∧ c'.next = c.next ∧
      c'.extent ≤ c.extent := by
  obtain ⟨ending, htake, hending⟩ := extensionData_eq_ok_iff.mp h
  obtain ⟨-, hpos, htarget, hlen, -, -⟩ := take_spec (by decide) htake hending
  have hextent := extent_take_le (by decide) htake hending
  have hahead := ahead_of_read hpos htarget (by omega)
  unfold next
  omega

/-- Extension blocks of a sparse map move the content behind them. -/
theorem position_sparseExtensions {m m' : SparseMap}
    (h : c.sparseExtensions m = (.ok m', c')) :
    c.position ≤ c'.position ∧ c'.ahead = c.ahead ∧ c'.extent ≤ c.extent := by
  fun_induction sparseExtensions m c with
  | case1 | case2 | case3 => cases h
  | case4 m c block c₁ hblock m₁ hadd hmore ih =>
    obtain ⟨hpos, hahead, hextent⟩ := position_readBlock hblock
    obtain ⟨hmorePos, hmoreAhead, hmoreExtent⟩ := ih h
    exact ⟨by omega, hmoreAhead.trans hahead, Nat.le_trans hmoreExtent hextent⟩
  | case5 m c block c₁ hblock m₁ hadd hmore =>
    obtain ⟨hpos, hahead, hextent⟩ := position_readBlock hblock
    obtain rfl : c₁.countBlock = c' := congrArg Prod.snd h
    exact ⟨by omega, hahead, hextent⟩

/-- A sparse map is read exactly if its header, its extension blocks and its size agree. -/
theorem sparseMap_eq_ok_iff {h : Header} {size : Nat} :
    c.sparseMap h size = (.ok (), c') ↔
      h.format = .gnu ∧ ∃ m m', (SparseMap.mk size 0 size).addHeader h = .ok m ∧
        (if SparseMap.headerContinues h then sparseExtensions m c else (.ok m, c)) =
          (.ok m', c') ∧
        m'.check h = .ok () := by
  unfold sparseMap
  by_cases hformat : h.format = .gnu
  · rw [if_neg (not_not_intro hformat)]
    cases hadd : (SparseMap.mk size 0 size).addHeader h with
    | error f => simp
    | ok m =>
      dsimp only
      -- The blocks of the map are read or not, and then the sizes are compared.
      rcases hmap : (if SparseMap.headerContinues h then sparseExtensions m c else
        (.ok m, c)) with
        ⟨f | m', c₁⟩
      · simp [hmap]
      · simp only [Prod.mk.injEq, hformat, true_and, Except.ok.injEq]
        constructor
        · rintro ⟨hcheck, rfl⟩
          exact ⟨m, m', rfl, hmap, hcheck⟩
        · rintro ⟨_, m₂, rfl, hmap₂, hcheck⟩
          rw [hmap] at hmap₂
          cases hmap₂
          exact ⟨hcheck, rfl⟩
  · rw [if_pos hformat]
    simp only [Prod.mk.injEq, reduceCtorEq, false_and, false_iff, not_and]
    exact fun hgnu => absurd hgnu hformat

/-- Reading a sparse map moves the position forwards and sets no new target. -/
theorem position_sparseMap {h : Header} {size : Nat} (heq : c.sparseMap h size = (.ok (), c')) :
    c.position ≤ c'.position ∧ c'.ahead = c.ahead ∧ c'.extent ≤ c.extent := by
  obtain ⟨-, m, m', -, hmap, -⟩ := sparseMap_eq_ok_iff.mp heq
  split at hmap
  · exact position_sparseExtensions hmap
  · cases hmap
    exact ⟨Nat.le_refl _, rfl, Nat.le_refl _⟩

/-! ### Members that are found -/

/-- The member is found from a place in a stream, after extensions that said something about it.
There is one rule for each kind of header that the search goes on from or ends at. -/
inductive Finds : Extensions → Cursor → Member → Cursor → Prop
  | plain {said : Extensions} {c c₁ : Cursor} {h : Header} {size : Nat} :
    c.header said = (.ok (some (h, size)), c₁) → isExtension h = false → h.typeFlag ≠ .sparse →
    Finds said c (memberOf h size said) c₁
  | sparse {said : Extensions} {c c₁ c₂ : Cursor} {h : Header} {size : Nat} :
    c.header said = (.ok (some (h, size)), c₁) → isExtension h = false → h.typeFlag = .sparse →
    c₁.sparseMap h size = (.ok (), c₂) → Finds said c (memberOf h size said) c₂
  | extension {said : Extensions} {c c₁ c₂ c' : Cursor} {h : Header} {size : Nat} {data : Bytes}
    {m : Member} : c.header said = (.ok (some (h, size)), c₁) → isExtension h = true →
    repeated? h.typeFlag said = none → c₁.extensionData size = (.ok data, c₂) →
    Finds (say h.typeFlag data said) c₂ m c' → Finds said c m c'

/-- A member that can be found is found. -/
theorem Finds.nextAfter {m : Member} (h : Finds said c m c') :
    c.nextAfter said = (.ok (some m), c') := by
  induction h with
  | plain hheader hext hflag =>
    rw [Cursor.nextAfter, hheader]
    simp [hext, hflag]
  | sparse hheader hext hflag hmap =>
    rw [Cursor.nextAfter, hheader]
    simp [hext, hflag, hmap]
  | extension hheader hext hrep hdata _ ih =>
    rw [Cursor.nextAfter, hheader]
    simp only [hext, if_true, hrep]
    rw [hdata]
    exact ih

/-- A member is found exactly as the relation says. -/
theorem nextAfter_eq_some_iff {m : Member} :
    c.nextAfter said = (.ok (some m), c') ↔ Finds said c m c' := by
  refine ⟨fun h => ?_, Finds.nextAfter⟩
  -- One case for each exit of the search. Those with a fault or without a member contradict `h`.
  induction said, c using nextAfter.induct with
  | case1 said c f c₁ hheader => rw [nextAfter, hheader] at h; cases h
  | case2 said c c₁ hheader =>
    rw [nextAfter, hheader] at h; dsimp only at h; split at h <;> cases h
  | case3 said c h₁ size c₁ hheader hext f hrep =>
    rw [nextAfter, hheader] at h
    simp [hext, hrep] at h
  | case4 said c h₁ size c₁ hheader hext hrep f c₂ hdata =>
    rw [nextAfter, hheader] at h
    simp only [hext, if_true, hrep] at h
    rw [hdata] at h
    cases h
  | case5 said c h₁ size c₁ hheader hext hrep data c₂ hdata ih =>
    rw [nextAfter, hheader] at h
    simp only [hext, if_true, hrep] at h
    rw [hdata] at h
    exact .extension hheader hext hrep hdata (ih h)
  | case6 said c h₁ size c₁ hheader hext hflag f c₂ hmap =>
    rw [nextAfter, hheader] at h
    simp [hext, hflag, hmap] at h
  | case7 said c h₁ size c₁ hheader hext hflag c₂ hmap =>
    rw [nextAfter, hheader] at h
    simp only [hext, hflag, if_true, if_false, hmap, Bool.false_eq_true] at h
    cases h
    exact .sparse hheader (by simpa using hext) hflag hmap
  | case8 said c h₁ size c₁ hheader hext hflag =>
    rw [nextAfter, hheader] at h
    simp only [hext, hflag, if_false, Bool.false_eq_true] at h
    cases h
    exact .plain hheader (by simpa using hext) hflag

/-- A member's header starts where the member before it ends, and its own content comes next, with
its padding, before the next header starts. -/
theorem Finds.position {m : Member} (h : Finds said c m c') :
    c.next ≤ c'.position ∧ c'.ahead = padded m.size ∧ c'.extent ≤ c.extent := by
  induction h with
  | plain hheader =>
    obtain ⟨hpos, hahead, hextent⟩ := position_header hheader
    exact ⟨by omega, hahead, hextent⟩
  | sparse hheader _ _ hmap =>
    -- The blocks of the map leave the next header as far away as the header put it.
    obtain ⟨hpos, hahead, hextent⟩ := position_header hheader
    obtain ⟨hmapPos, hmapAhead, hmapExtent⟩ := position_sparseMap hmap
    exact ⟨by omega, hmapAhead.trans hahead, Nat.le_trans hmapExtent hextent⟩
  | @extension said c c₁ c₂ c' h size data m hheader _ _ hdata _ ih =>
    obtain ⟨hpos, hahead, hextent⟩ := position_header hheader
    have hroom : size ≤ c₁.ahead := by rw [hahead]; exact le_padded size
    obtain ⟨hdataPos, -, hdataNext, hdataExtent⟩ := position_extensionData hdata hroom
    have hle := c₁.position_le_next
    obtain ⟨hmorePos, hmoreAhead, hmoreExtent⟩ := ih
    exact ⟨by omega, hmoreAhead, by omega⟩

/-- A member that is found begins behind the last one and has its padded size ahead. -/
theorem position_nextMember {m : Member} (h : c.nextMember = (.ok (some m), c')) :
    c.next ≤ c'.position ∧ c'.ahead = padded m.size ∧ c'.extent ≤ c.extent :=
  (nextAfter_eq_some_iff.mp h).position

/-- The content of a member that is found is before the next header. -/
theorem size_le_ahead {m : Member} (h : c.nextMember = (.ok (some m), c')) :
    m.size ≤ c'.ahead := by
  rw [(position_nextMember h).2.1]
  exact le_padded m.size

/-- Where a member is found there is more than a block. -/
theorem ne_nil_of_nextAfter {m : Member} (h : c.nextAfter said = (.ok (some m), c')) :
    c.feed.bytes ≠ [] := by
  intro hnil
  have hsize := size_nextAfter_lt said c h
  rw [Feed.size_eq c.feed, hnil] at hsize
  simp [blockSize] at hsize

/-! ### Cursors that share what comes next -/

/-- The second cursor stands where the first does, its stream ends without a fault, and as far as
the position `p` it has the bytes that the first has. -/
structure SharesTo (p : Nat) (c d : Cursor) : Prop where
  whole : d.feed.Whole
  position : d.position = c.position
  target : d.target = c.target
  extent : p ≤ d.extent
  bytes : ∀ b : Bytes, c.position + b.length ≤ p → b <+: c.feed.bytes → b <+: d.feed.bytes

/-- At the start of two streams, of which the second has the first bytes of the first. -/
theorem SharesTo.start {feed feed' : Feed} (hwhole : feed'.Whole) (hp : p ≤ feed.bytes.length)
    (h : feed.bytes.take p <+: feed'.bytes) : SharesTo p (.start feed) (.start feed') where
  whole := hwhole
  position := rfl
  target := rfl
  extent := by
    have := h.length_le
    rw [List.length_take] at this
    simp only [Cursor.extent, Cursor.start]
    omega
  bytes b hlen hb := by
    simp only [Cursor.start] at hlen hb ⊢
    obtain ⟨rest, hrest⟩ := hb
    refine List.IsPrefix.trans ?_ h
    rw [← hrest, List.take_append]
    rw [List.take_of_length_le (by omega)]
    exact List.prefix_append _ _

/-- As much is left to skip. -/
theorem SharesTo.ahead (h : SharesTo p c d) : d.ahead = c.ahead := by
  unfold Cursor.ahead
  rw [h.target, h.position]

/-- The next header starts at the same place for both. -/
theorem SharesTo.next (h : SharesTo p c d) : d.next = c.next := by
  unfold Cursor.next
  rw [h.position, h.ahead]

/-- What the one reads without a fault the other reads as well. -/
theorem SharesTo.take (h : SharesTo p c d) {unit : Nat} (hunit : 0 < unit) {n : Nat} {b : Bytes}
    (htake : c.take unit n = (b, .full, c')) (hp : c'.position ≤ p) :
    ∃ d', d.take unit n = (b, .full, d') ∧ SharesTo p c' d' := by
  obtain ⟨hbytes, hpos, htarget, -, hfull, -⟩ := take_spec hunit htake (by simp)
  obtain rfl := hfull rfl
  -- What was read comes next in both streams.
  have hb : b <+: d.feed.bytes :=
    h.bytes b (by omega) ((List.prefix_append _ _).trans hbytes)
  obtain ⟨rest, hrest⟩ := hb
  obtain ⟨d', htake', hwhole, hbytes'⟩ := take_of_whole h.whole hunit b.length
  rw [← hrest] at htake' hbytes'
  rw [List.take_left, if_pos (by simp)] at htake'
  rw [List.drop_left] at hbytes'
  obtain ⟨-, hpos', htarget', -⟩ := take_spec hunit htake' (by simp)
  refine ⟨d', htake', hwhole, ?_, ?_, ?_, fun b' hlen hb' => ?_⟩
  · rw [hpos, hpos', h.position]
  · rw [htarget, htarget', h.target]
  · have hextent := h.extent
    unfold Cursor.extent at hextent ⊢
    rw [← hrest, List.length_append] at hextent
    rw [hbytes']
    omega
  · have hmore := h.bytes (b ++ b') (by rw [List.length_append]; omega)
      (((List.prefix_append_right_inj b).mpr hb').trans hbytes)
    rw [← hrest, List.prefix_append_right_inj] at hmore
    rw [hbytes']
    exact hmore

/-- Skipping up to the limit keeps sharing. -/
theorem SharesTo.skip (h : SharesTo p c d) (hskip : c.skip = (.ok (), c'))
    (hp : c'.position ≤ p) :
    ∃ d', d.skip = (.ok (), d') ∧ SharesTo p c' d' := by
  obtain ⟨b, htake⟩ := skip_eq_ok_iff.mp hskip
  obtain ⟨d', htake', hshares⟩ := h.take (by decide) htake hp
  refine ⟨d', skip_eq_ok_iff.mpr ⟨b, ?_⟩, hshares⟩
  rw [h.ahead]
  exact htake'

/-- So does reading a block. -/
theorem SharesTo.readBlock (h : SharesTo p c d) {block : Bytes}
    (hblock : c.readBlock = (.ok (some block), c')) (hp : c'.position ≤ p) :
    ∃ d', d.readBlock = (.ok (some block), d') ∧ SharesTo p c' d' := by
  obtain ⟨d', htake, hshares⟩ := h.take (by decide) (readBlock_eq_some_iff.mp hblock) hp
  exact ⟨d', readBlock_eq_some_iff.mpr htake, hshares⟩

/-- Moving the next header in the same way. -/
theorem SharesTo.withTarget (h : SharesTo p c d) (w : UInt64) :
    SharesTo p { c with target := w } { d with target := w } :=
  ⟨h.whole, h.position, rfl, h.extent, h.bytes⟩

/-- So does counting one. -/
theorem SharesTo.countBlock (h : SharesTo p c d) : SharesTo p c.countBlock d.countBlock := by
  unfold Cursor.countBlock
  rw [h.target]
  exact h.withTarget _

/-- So does reading a header. -/
theorem SharesTo.header (h : SharesTo p c d) {h₁ : Header} {size : Nat}
    (hheader : c.header said = (.ok (some (h₁, size)), c')) (hp : c'.position ≤ p) :
    ∃ d', d.header said = (.ok (some (h₁, size)), d') ∧ SharesTo p c' d' := by
  obtain ⟨c₁, c₂, hskip, hblock, hzero, hsize, hadvance⟩ := header_eq_some_iff.mp hheader
  obtain ⟨hround, hsum, rfl⟩ := advance_eq_ok_iff.mp hadvance
  obtain ⟨hpos, -⟩ := position_readBlock hblock
  rw [position_countBlock] at hp hpos
  obtain ⟨d₁, hskip', hshares₁⟩ := h.skip hskip (by omega)
  obtain ⟨d₂, hblock', hshares₂⟩ := hshares₁.readBlock hblock hp
  have hcounted := hshares₂.countBlock
  rw [← hcounted.target] at hsum ⊢
  exact ⟨_, header_eq_some_iff.mpr ⟨d₁, d₂, hskip', hblock', hzero, hsize,
    advance_eq_ok_iff.mpr ⟨hround, hsum, rfl⟩⟩, hcounted.withTarget _⟩

/-- The data of an extension member that a member follows is there in full. -/
theorem SharesTo.extensionData (h : SharesTo p c d) {size : Nat} {data : Bytes} {m : Member}
    {c'' : Cursor} (hdata : c.extensionData size = (.ok data, c'))
    (hmore : c'.nextAfter said = (.ok (some m), c'')) (hp : c'.position ≤ p) :
    ∃ d', d.extensionData size = (.ok data, d') ∧ SharesTo p c' d' := by
  obtain ⟨ending, htake, hending⟩ := extensionData_eq_ok_iff.mp hdata
  obtain ⟨-, -, -, -, -, hshort⟩ := take_spec (by decide) htake hending
  -- The data may come short only at the end of the stream, and there no member follows.
  cases ending with
  | failed f => exact absurd rfl (hending f)
  | short => exact absurd (hshort rfl) (ne_nil_of_nextAfter hmore)
  | full =>
    obtain ⟨d', htake', hshares⟩ := h.take (by decide) htake hp
    exact ⟨d', extensionData_eq_ok_iff.mpr ⟨_, htake', by simp⟩, hshares⟩

/-- So does reading the extension blocks of a sparse map. -/
theorem SharesTo.sparseExtensions (h : SharesTo p c d) {m m' : SparseMap}
    (hmap : c.sparseExtensions m = (.ok m', c')) (hp : c'.position ≤ p) :
    ∃ d', d.sparseExtensions m = (.ok m', d') ∧ SharesTo p c' d' := by
  -- On the blocks of the map: one is followed by another (`case4`), or it is the last (`case5`).
  induction m, c using sparseExtensions.induct generalizing d with
  | case1 m c f c₁ hblock => rw [Cursor.sparseExtensions, hblock] at hmap; cases hmap
  | case2 m c c₁ hblock => rw [Cursor.sparseExtensions, hblock] at hmap; cases hmap
  | case3 m c block c₁ hblock f hadd =>
    rw [Cursor.sparseExtensions, hblock] at hmap
    simp [hadd] at hmap
  | case4 m c block c₁ hblock m₁ hadd hmore ih =>
    rw [Cursor.sparseExtensions, hblock] at hmap
    simp only [hadd, hmore, if_true] at hmap
    obtain ⟨hpos, -⟩ := position_sparseExtensions hmap
    rw [position_countBlock] at hpos
    obtain ⟨d₁, hblock', hshares⟩ := h.readBlock hblock (by omega)
    obtain ⟨d', hmap', hshares'⟩ := ih hshares.countBlock hmap
    refine ⟨d', ?_, hshares'⟩
    rw [Cursor.sparseExtensions, hblock']
    simp only [hadd, hmore, if_true]
    exact hmap'
  | case5 m c block c₁ hblock m₁ hadd hmore =>
    rw [Cursor.sparseExtensions, hblock] at hmap
    simp only [hadd, hmore, if_false, Bool.false_eq_true] at hmap
    cases hmap
    rw [position_countBlock] at hp
    obtain ⟨d₁, hblock', hshares⟩ := h.readBlock hblock hp
    refine ⟨_, ?_, hshares.countBlock⟩
    rw [Cursor.sparseExtensions, hblock']
    simp only [hadd, hmore, if_false, Bool.false_eq_true]

/-- So does reading the map. -/
theorem SharesTo.sparseMap (h : SharesTo p c d) {h₁ : Header} {size : Nat}
    (hmap : c.sparseMap h₁ size = (.ok (), c')) (hp : c'.position ≤ p) :
    ∃ d', d.sparseMap h₁ size = (.ok (), d') ∧ SharesTo p c' d' := by
  obtain ⟨hgnu, m, m', hadd, hmore, hcheck⟩ := sparseMap_eq_ok_iff.mp hmap
  by_cases hcontinues : SparseMap.headerContinues h₁ = true
  · rw [if_pos hcontinues] at hmore
    obtain ⟨d', hmore', hshares⟩ := h.sparseExtensions hmore hp
    refine ⟨d', sparseMap_eq_ok_iff.mpr ⟨hgnu, m, m', hadd, ?_, hcheck⟩, hshares⟩
    rw [if_pos hcontinues]
    exact hmore'
  · rw [if_neg hcontinues] at hmore
    cases hmore
    refine ⟨d, sparseMap_eq_ok_iff.mpr ⟨hgnu, m, m, hadd, ?_, hcheck⟩, h⟩
    rw [if_neg hcontinues]

/-- A member that is found in the one is found in the other. -/
theorem SharesTo.nextAfter {m : Member} (h : SharesTo p c d)
    (hnext : c.nextAfter said = (.ok (some m), c')) (hp : c'.position ≤ p) :
    ∃ d', d.nextAfter said = (.ok (some m), d') ∧ SharesTo p c' d' := by
  -- On the headers that are read before the member is found.
  have hfinds := nextAfter_eq_some_iff.mp hnext
  clear hnext
  induction hfinds generalizing d with
  | plain hheader hext hflag =>
    obtain ⟨d₁, hheader', hshares⟩ := h.header hheader hp
    exact ⟨d₁, (Finds.plain hheader' hext hflag).nextAfter, hshares⟩
  | sparse hheader hext hflag hmap =>
    obtain ⟨hpos, -⟩ := position_sparseMap hmap
    obtain ⟨d₁, hheader', hshares₁⟩ := h.header hheader (by omega)
    obtain ⟨d₂, hmap', hshares₂⟩ := hshares₁.sparseMap hmap hp
    exact ⟨d₂, (Finds.sparse hheader' hext hflag hmap').nextAfter, hshares₂⟩
  | @extension said c c₁ c₂ c' h₁ size data m hheader hext hrep hdata hmore ih =>
    have hroom : size ≤ c₁.ahead := by
      rw [(position_header hheader).2.1]
      exact le_padded size
    have hpos := position_extensionData hdata hroom
    have hpos' := hmore.position
    have hle := c₂.position_le_next
    obtain ⟨d₁, hheader', hshares₁⟩ := h.header hheader (by omega)
    obtain ⟨d₂, hdata', hshares₂⟩ := hshares₁.extensionData hdata hmore.nextAfter (by omega)
    obtain ⟨d', hfound, hshares⟩ := ih hshares₂ hp
    exact ⟨d', (Finds.extension hheader' hext hrep hdata'
      (nextAfter_eq_some_iff.mp hfound)).nextAfter, hshares⟩

/-- So does looking for a member. -/
theorem SharesTo.nextMember {m : Member} (h : SharesTo p c d)
    (hnext : c.nextMember = (.ok (some m), c')) (hp : c'.position ≤ p) :
    ∃ d', d.nextMember = (.ok (some m), d') ∧ SharesTo p c' d' := h.nextAfter hnext hp

/-- Where the bytes end together with a member, the archive ends. -/
theorem nextMember_of_end (hwhole : c.feed.Whole)
    (hend : c.next = c.extent) : ∃ c', c.nextMember = (.ok none, c') := by
  unfold next extent at hend
  obtain ⟨c₁, htake, hwhole₁, hbytes₁⟩ := take_of_whole hwhole (by decide : 0 < skipUnit) c.ahead
  rw [if_pos (by omega)] at htake
  rw [List.drop_of_length_le (by omega)] at hbytes₁
  obtain ⟨c₂, htake', -, -⟩ := take_of_whole hwhole₁ (by decide : 0 < blockSize) blockSize
  rw [hbytes₁, List.take_nil, if_neg (by simp [blockSize])] at htake'
  have hskip : c.skip = (.ok (), c₁) := skip_eq_ok_iff.mpr ⟨_, htake⟩
  have hblock : c₁.readBlock = (.ok none, c₂) := by unfold readBlock; rw [htake']
  have hheader : c.header .none = (.ok none, c₂) := by
    unfold header
    rw [hskip]
    dsimp only
    rw [hblock]
  refine ⟨c₂, ?_⟩
  rw [nextMember, Cursor.nextAfter, hheader]
  rfl

end ImageBuild.Tar.Cursor
