import ImageBuild.Proofs.Tar.Layout
import ImageBuild.Proofs.Tar.Sharing

/-!
# `ImageBuild.Proofs.Tar.Search`: the search for a member takes the bytes of its headers

The layout of a member (`ImageBuild.Proofs.Tar.Layout`) and the search for it describe the same
bytes.

In one direction, a search that finds a member has taken what was left of the member before, and
then headers that describe this one: `Finds.passes`. `Passes c b c'` says which bytes a reading
takes and what it leaves. A fault may take away bytes that were not handed out, so what is left
comes next but need not be all, unless the feed ends without a fault. A search that finds no
member stands at the end: `passes_of_nextMember_none`.

In the other direction, a member is found behind headers that describe it if its content is there
(`finds_of_heads`). That takes a feed without a fault, and places that a word can count
(`StandsBefore`).
-/

set_option autoImplicit false

namespace ImageBuild.Tar.Cursor

variable {c c' c'' c₁ c₂ : Cursor} {said : Extensions} {h : Header} {m : Member}
  {map map' : SparseMap}
  {a b data heads bytes : Bytes} {size : Nat}

/-! ### What a reading takes -/

/-- The reading from one cursor to another takes these bytes. Of those behind them a fault may
take some away. -/
structure Passes (c : Cursor) (b : Bytes) (c' : Cursor) : Prop where
  bytes : b ++ c'.feed.bytes <+: c.feed.bytes
  whole : c.feed.Whole → c'.feed.Whole ∧ b ++ c'.feed.bytes = c.feed.bytes
  fault? : c'.feed.fault? = c.feed.fault?
  position : c'.position = c.position + b.length

/-- Standing still passes nothing. -/
theorem Passes.refl (c : Cursor) : Passes c [] c :=
  ⟨List.prefix_rfl, fun h => ⟨h, rfl⟩, rfl, rfl⟩

/-- Bytes that are passed after one another. -/
theorem Passes.trans (h : Passes c a c₁) (h' : Passes c₁ b c') : Passes c (a ++ b) c' where
  bytes := by
    rw [List.append_assoc]
    exact ((List.prefix_append_right_inj a).mpr h'.bytes).trans h.bytes
  whole hwhole := by
    obtain ⟨hwhole₁, hbytes⟩ := h.whole hwhole
    obtain ⟨hwhole', hbytes'⟩ := h'.whole hwhole₁
    exact ⟨hwhole', by rw [List.append_assoc, hbytes', hbytes]⟩
  fault? := h'.fault?.trans h.fault?
  position := by rw [h'.position, h.position, List.length_append, Nat.add_assoc]

/-- Where the next header starts does not matter for the bytes. -/
theorem Passes.withTarget (h : Passes c b c') (w : UInt64) : Passes c b { c' with target := w } :=
  ⟨h.bytes, h.whole, h.fault?, h.position⟩

/-- Counting a block passes nothing more. -/
theorem Passes.countBlock (h : Passes c b c') : Passes c b c'.countBlock := by
  unfold Cursor.countBlock
  exact h.withTarget _

/-- Taking bytes changes nothing about how the feed ends, and a feed that ends in a fault is never
just short. -/
theorem fault?_take {unit : Nat} (hunit : 0 < unit) {n : Nat} {ending : Ending}
    (h : c.take unit n = (b, ending, c')) :
    c'.feed.fault? = c.feed.fault? ∧ (ending = .short → c.feed.fault? = none) := by
  unfold take at h
  cases h
  exact Feed.fault?_readUpTo hunit (Eq.refl (c.feed.readUpTo unit n))

/-- A reading that meets no fault takes what it returns. -/
theorem passes_take {unit : Nat} (hunit : 0 < unit) {n : Nat} {ending : Ending}
    (h : c.take unit n = (b, ending, c')) (hending : ∀ f, ending ≠ .failed f) :
      Passes c b c' := by
  obtain ⟨hbytes, hposition, -⟩ := take_spec hunit h hending
  refine ⟨hbytes, fun hwhole => ?_, (fault?_take hunit h).1, hposition⟩
  obtain ⟨c₁, htake, hwhole₁, hrest⟩ := take_of_whole hwhole hunit n
  cases h.symm.trans htake
  exact ⟨hwhole₁, by rw [hrest, List.take_append_drop]⟩

/-- What is skipped is as much as there is before the next header. -/
theorem passes_skip (h : c.skip = (.ok (), c')) :
    ∃ left, left.length = c.ahead ∧ Passes c left c' := by
  obtain ⟨left, htake⟩ := skip_eq_ok_iff.mp h
  obtain ⟨-, -, -, -, hfull, -⟩ := take_spec (by decide) htake (by simp)
  exact ⟨left, hfull rfl, passes_take (by decide) htake (by simp)⟩

/-- Reading a block passes it. -/
theorem passes_readBlock (h : c.readBlock = (.ok (some b), c')) :
    b.length = blockSize ∧ Passes c b c' := by
  have htake := readBlock_eq_some_iff.mp h
  obtain ⟨-, -, -, -, hfull, -⟩ := take_spec (by decide) htake (by simp)
  exact ⟨hfull rfl, passes_take (by decide) htake (by simp)⟩

/-- Reading a header passes what was left to skip, and then the header. -/
theorem passes_header (hheader : c.header said = (.ok (some (h, size)), c')) :
    ∃ left, left.length = c.ahead ∧ IsHeaderOf said h size ∧
      Passes c (left ++ h.block) c' := by
  obtain ⟨c₁, c₂, hskip, hblock, hzero, hsize, hadvance⟩ := header_eq_some_iff.mp hheader
  obtain ⟨-, -, rfl⟩ := advance_eq_ok_iff.mp hadvance
  obtain ⟨left, hleft, hpasses⟩ := passes_skip hskip
  obtain ⟨hlength, hpasses'⟩ := passes_readBlock hblock
  exact ⟨left, hleft, ⟨hlength, hzero, hsize⟩, (hpasses.trans hpasses'.countBlock).withTarget _⟩

/-- Reading the extension blocks of a sparse map passes them. -/
theorem passes_sparseExtensions (h : c.sparseExtensions map = (.ok map', c')) :
    ∃ b, MapBlocks map b map' ∧ Passes c b c' := by
  fun_induction sparseExtensions map c with
  | case1 | case2 | case3 => cases h
  | case4 map c block c₁ hblock map₁ hadd hmore ih =>
    obtain ⟨hlength, hpasses⟩ := passes_readBlock hblock
    obtain ⟨b, hblocks, hrest⟩ := ih h
    exact ⟨block ++ b, .more hlength hadd hmore hblocks, hpasses.countBlock.trans hrest⟩
  | case5 map c block c₁ hblock map₁ hadd hmore =>
    obtain ⟨hlength, hpasses⟩ := passes_readBlock hblock
    obtain ⟨hmap, rfl⟩ := Prod.mk.inj h
    cases hmap
    exact ⟨block, .last hlength hadd (by simpa using hmore), hpasses.countBlock⟩

/-- So does reading the map. -/
theorem passes_sparseMap (hmap : c.sparseMap h size = (.ok (), c')) :
    ∃ b, MapRest h size b ∧ Passes c b c' := by
  obtain ⟨hgnu, map, map', hadd, hmore, hcheck⟩ := sparseMap_eq_ok_iff.mp hmap
  by_cases hcontinues : SparseMap.headerContinues h = true
  · rw [if_pos hcontinues] at hmore
    obtain ⟨b, hblocks, hpasses⟩ := passes_sparseExtensions hmore
    exact ⟨b, .inBlocks hgnu hadd hcontinues hblocks hcheck, hpasses⟩
  · rw [if_neg hcontinues] at hmore
    cases hmore
    exact ⟨[], .inHeader hgnu hadd (by simpa using hcontinues) hcheck, .refl c⟩

/-- The data of an extension that a member is found behind are all there. -/
theorem passes_extensionData (hdata : c.extensionData size = (.ok data, c'))
    (hmore : c'.nextAfter said = (.ok (some m), c'')) : data.length = size ∧
    Passes c data c' := by
  obtain ⟨ending, htake, hending⟩ := extensionData_eq_ok_iff.mp hdata
  obtain ⟨-, -, -, -, hfull, hshort⟩ := take_spec (by decide) htake hending
  refine ⟨?_, passes_take (by decide) htake hending⟩
  cases ending with
  | full => exact hfull rfl
  | short => exact absurd (hshort rfl) (ne_nil_of_nextAfter hmore)
  | failed f => exact absurd rfl (hending f)

/-- A member that is found is described by the bytes from where its first header starts. -/
theorem Finds.passes (hfinds : Finds said c m c') :
    ∃ left heads, left.length = c.ahead ∧ Heads said heads m ∧ Passes c (left ++ heads) c' := by
  induction hfinds with
  | plain hheader hext hflag =>
    obtain ⟨left, hleft, his, hpasses⟩ := passes_header hheader
    exact ⟨left, _, hleft, .plain his hext hflag, hpasses⟩
  | sparse hheader hext hflag hmap =>
    obtain ⟨left, hleft, his, hpasses⟩ := passes_header hheader
    obtain ⟨rest, hrest, hpasses'⟩ := passes_sparseMap hmap
    refine ⟨left, _, hleft, .sparse his hext hflag hrest, ?_⟩
    rw [← List.append_assoc]
    exact hpasses.trans hpasses'
  | @extension said c c₁ c₂ c' h size data m hheader hext hrep hdata hmore ih =>
    obtain ⟨left, hleft, his, hpasses⟩ := passes_header hheader
    obtain ⟨hlength, hpasses'⟩ := passes_extensionData hdata hmore.nextAfter
    -- What the next header is skipped to over is the padding of these data.
    obtain ⟨padding, heads, hpadding, hheads, hrest⟩ := ih
    have hahead := (position_header hheader).2.1
    have hle := le_padded size
    have hnext := (position_extensionData hdata (by omega)).2.2.1
    have hposition := hpasses'.position
    have hfilled : data.length + padding.length = padded data.length := by
      rw [hlength]
      unfold Cursor.next at hnext
      omega
    subst hlength
    refine ⟨left, _, hleft, .extension his hext hrep hfilled hheads, ?_⟩
    simpa only [List.append_assoc] using (hpasses.trans hpasses').trans hrest

/-! ### The end of the archive -/

/-- The archive ends here: nothing comes any more, or a block of zeros does. -/
def AtEnd (c : Cursor) : Prop :=
  c.feed.fault? = none ∧ c.feed.bytes = [] ∨ List.replicate blockSize 0 <+: c.feed.bytes

/-- Where no block is read the stream ends, and no fault ends it. -/
theorem passes_readBlock_none (h : c.readBlock = (.ok none, c')) :
    Passes c [] c' ∧ c'.feed.fault? = none ∧ c'.feed.bytes = [] := by
  have htake : c.take blockSize blockSize = ([], .short, c') := by
    unfold readBlock at h
    rcases htake : c.take blockSize blockSize with ⟨_ | ⟨byte, bytes⟩, _ | _ | f, c₁⟩ <;>
      rw [htake] at h <;> cases h
    rfl
  obtain ⟨-, -, -, -, -, hshort⟩ := take_spec (by decide) htake (by simp)
  obtain ⟨hfault, hnone⟩ := fault?_take (by decide) htake
  exact ⟨passes_take (by decide) htake (by simp), hfault.trans (hnone rfl), hshort rfl⟩

/-- A block that is all zeros. -/
theorem eq_replicate_of_isZero (hlength : h.block.length = blockSize) (hzero : h.isZero = true) :
    h.block = List.replicate blockSize 0 := by
  rw [List.eq_replicate_iff]
  exact ⟨hlength, fun byte hmem => by simpa using List.all_eq_true.mp hzero byte hmem⟩

/-- Where no header is found the archive ends. -/
theorem passes_header_none (hheader : c.header said = (.ok none, c')) :
    ∃ left c₁, left.length = c.ahead ∧ Passes c left c₁ ∧ c₁.AtEnd := by
  unfold header at hheader
  rcases hskip : c.skip with ⟨f | ⟨⟩, c₁⟩
  · rw [hskip] at hheader
    cases hheader
  obtain ⟨left, hleft, hpasses⟩ := passes_skip hskip
  rw [hskip] at hheader
  dsimp only at hheader
  rcases hblock : c₁.readBlock with ⟨f | _ | block, c₂⟩
  · rw [hblock] at hheader
    cases hheader
  · -- No block comes any more.
    obtain ⟨hpasses', hend⟩ := passes_readBlock_none hblock
    refine ⟨left, c₂, hleft, ?_, Or.inl hend⟩
    simpa using hpasses.trans hpasses'
  · -- A block comes, which is no header if it is all zeros.
    rw [hblock] at hheader
    dsimp only at hheader
    by_cases hzero : (Header.mk block).isZero = true
    · obtain ⟨hlength, hpasses'⟩ := passes_readBlock hblock
      have hzeros := eq_replicate_of_isZero (h := ⟨block⟩) hlength hzero
      refine ⟨left, c₁, hleft, hpasses, Or.inr ?_⟩
      rw [← hzeros]
      exact (List.prefix_append _ _).trans hpasses'.bytes
    · rw [if_neg hzero] at hheader
      split at hheader
      · cases hheader
      · split at hheader <;> cases hheader

/-- After an extension member something was said. -/
@[simp]
theorem any_say (flag : TypeFlag) (data : Bytes) (said : Extensions) :
    (say flag data said).any = true := by
  unfold say Extensions.any
  split <;> simp

/-- The search for a member comes to the end only where nothing was said about a member. -/
theorem header_of_nextAfter_none (h : c.nextAfter said = (.ok none, c')) :
    said.any = false ∧ c.header said = (.ok none, c') := by
  induction said, c using nextAfter.induct with
  | case1 said c f c₁ hheader => rw [nextAfter, hheader] at h; cases h
  | case2 said c c₁ hheader =>
    rw [nextAfter, hheader] at h
    dsimp only at h
    by_cases hsaid : said.any = true
    · rw [if_pos hsaid] at h
      cases h
    · rw [if_neg hsaid] at h
      cases h
      exact ⟨by simpa using hsaid, hheader⟩
  | case3 said c h₁ size c₁ hheader hext f hrep =>
    rw [nextAfter, hheader] at h
    simp [hext, hrep] at h
  | case4 said c h₁ size c₁ hheader hext hrep f c₂ hdata =>
    rw [nextAfter, hheader] at h
    simp only [hext, if_true, hrep] at h
    rw [hdata] at h
    cases h
  | case5 said c h₁ size c₁ hheader hext hrep data c₂ hdata ih =>
    rw [nextAfter, hheader] at h
    simp only [hext, if_true, hrep] at h
    rw [hdata] at h
    -- An extension says something about a member, which has to come.
    have hnothing := (ih h).1
    rw [any_say] at hnothing
    cases hnothing
  | case6 said c h₁ size c₁ hheader hext hflag f c₂ hmap =>
    rw [nextAfter, hheader] at h
    simp [hext, hflag, hmap] at h
  | case7 said c h₁ size c₁ hheader hext hflag c₂ hmap =>
    rw [nextAfter, hheader] at h
    simp [hext, hflag, hmap] at h
  | case8 said c h₁ size c₁ hheader hext hflag =>
    rw [nextAfter, hheader] at h
    simp [hext, hflag] at h

/-- Where the members end, what is left of the last one is there to be skipped, and the archive
ends. -/
theorem passes_of_nextMember_none (h : c.nextMember = (.ok none, c')) :
    ∃ left c₁, left.length = c.ahead ∧ Passes c left c₁ ∧ c₁.AtEnd :=
  passes_header_none (header_of_nextAfter_none h).2

/-! ### Members that are there are found -/

/-- The cursor has these bytes before it once it has skipped what is left of the member before.
They are few enough for their places to be counted. -/
structure StandsBefore (bytes : Bytes) (c : Cursor) : Prop where
  whole : c.feed.Whole
  left : ∃ left : Bytes, c.feed.bytes = left ++ bytes ∧ left.length = c.ahead
  limit : c.next + bytes.length < Text.wordLimit

/-- At the start the cursor stands before all bytes. -/
theorem StandsBefore.start {feed : Feed} (hwhole : feed.Whole)
    (hlimit : feed.bytes.length < Text.wordLimit) : StandsBefore feed.bytes (.start feed) where
  whole := hwhole
  left := ⟨[], rfl, (ahead_start feed).symm⟩
  limit := by
    rw [next_start, Nat.zero_add]
    exact hlimit

/-- Bytes that come next are taken, and the others are left. -/
theorem take_of_append (hwhole : c.feed.Whole) (hbytes : c.feed.bytes = b ++ bytes) {unit : Nat}
    (hunit : 0 < unit) :
    ∃ c', c.take unit b.length = (b, .full, c') ∧ c'.feed.Whole ∧ c'.feed.bytes = bytes ∧
      c'.position = c.position + b.length ∧ c'.target = c.target := by
  obtain ⟨c', htake, hwhole', hrest⟩ := take_of_whole hwhole hunit b.length
  rw [hbytes] at htake hrest
  rw [List.take_left, if_pos (by simp)] at htake
  rw [List.drop_left] at hrest
  obtain ⟨-, hposition, htarget, -⟩ := take_spec hunit htake (by simp)
  exact ⟨c', htake, hwhole', hrest, hposition, htarget⟩

/-- A block that is there is read. -/
theorem readBlock_of_append (hwhole : c.feed.Whole) (hbytes : c.feed.bytes = b ++ bytes)
    (hlength : b.length = blockSize) :
    ∃ c', c.readBlock = (.ok (some b), c') ∧ c'.feed.Whole ∧ c'.feed.bytes = bytes := by
  obtain ⟨c', htake, hwhole', hrest, -⟩ :=
    take_of_append hwhole hbytes (by decide : 0 < blockSize)
  rw [hlength] at htake
  exact ⟨c', readBlock_eq_some_iff.mpr htake, hwhole', hrest⟩

/-- What is left of the member before is skipped. -/
theorem StandsBefore.skip (hc : c.StandsBefore bytes) :
    ∃ c', c.skip = (.ok (), c') ∧ c'.feed.Whole ∧ c'.feed.bytes = bytes := by
  obtain ⟨left, hbytes, hleft⟩ := hc.left
  obtain ⟨c', htake, hwhole, hrest, -⟩ :=
    take_of_append hc.whole hbytes (by decide : 0 < skipUnit)
  exact ⟨c', skip_eq_ok_iff.mpr ⟨left, hleft ▸ htake⟩, hwhole, hrest⟩

/-- A header is found if a word can count where the content ends that it declares. -/
theorem StandsBefore.header_of_lt (hc : c.StandsBefore (h.block ++ bytes))
    (his : IsHeaderOf said h size) (hlt : c.next + blockSize + padded size < Text.wordLimit) :
    ∃ c', c.header said = (.ok (some (h, size)), c') ∧ c'.feed.Whole ∧ c'.feed.bytes = bytes := by
  obtain ⟨c₁, hskip, hwhole₁, hbytes₁⟩ := hc.skip
  obtain ⟨c₂, hblock, hwhole₂, hbytes₂⟩ := readBlock_of_append hwhole₁ hbytes₁ his.length
  obtain ⟨hposition₁, hahead₁, -⟩ := position_skip hskip
  obtain ⟨hposition₂, hahead₂, -⟩ := position_readBlock hblock
  have hle := le_padded size
  -- The word points to where the reading has come, which is well within what a word can count.
  have htarget : c₂.countBlock.target.toNat = c.next + blockSize := by
    have hnext : c₂.countBlock.next = c₂.countBlock.position + c₂.countBlock.ahead := rfl
    rw [toNat_target, hnext, hahead₂, hahead₁, hposition₂, hposition₁]
    exact Nat.mod_eq_of_lt (by omega)
  have hround : size + (blockSize - 1) < Text.wordLimit := by omega
  have hsum : c₂.countBlock.target.toNat + padded size < Text.wordLimit := by omega
  have hadvance : advance size c₂.countBlock = .ok _ := advance_eq_ok_iff.mpr ⟨hround, hsum, rfl⟩
  refine ⟨_, header_eq_some_iff.mpr ⟨c₁, c₂, hskip, hblock, his.notZero, his.size, hadvance⟩, ?_,
    ?_⟩
  · rw [feed_countBlock]
    exact hwhole₂
  · rw [feed_countBlock]
    exact hbytes₂

/-- A header is found if the content that it declares is there. -/
theorem StandsBefore.header (hc : c.StandsBefore (h.block ++ bytes))
    (his : IsHeaderOf said h size) (hfits : padded size ≤ bytes.length) :
    ∃ c', c.header said = (.ok (some (h, size)), c') ∧ c'.feed.Whole ∧ c'.feed.bytes = bytes := by
  have hlimit := hc.limit
  rw [List.length_append, his.length] at hlimit
  exact hc.header_of_lt his (by omega)

/-- Nothing, or a block of zeros, is the end. -/
theorem StandsBefore.nextMember_of_end (hc : c.StandsBefore bytes)
    (hend : bytes = [] ∨ ∃ rest, bytes = List.replicate blockSize 0 ++ rest) :
    ∃ c', c.nextMember = (.ok none, c') := by
  obtain ⟨c₁, hskip, hwhole₁, hbytes₁⟩ := hc.skip
  obtain ⟨c₂, hheader⟩ : ∃ c₂, c.header .none = (.ok none, c₂) := by
    unfold Cursor.header
    rw [hskip]
    dsimp only
    rcases hend with rfl | ⟨rest, rfl⟩
    · obtain ⟨c₂, htake, -⟩ := take_of_whole hwhole₁ (by decide : 0 < blockSize) blockSize
      have hblock : c₁.readBlock = (.ok none, c₂) := by
        unfold readBlock
        rw [htake, hbytes₁]
        rfl
      exact ⟨c₂, by rw [hblock]⟩
    · obtain ⟨c₂, hblock, -⟩ := readBlock_of_append hwhole₁ hbytes₁ List.length_replicate
      refine ⟨c₂, ?_⟩
      rw [hblock]
      dsimp only
      rw [if_pos (by simp [Header.isZero])]
  refine ⟨c₂, ?_⟩
  rw [nextMember, Cursor.nextAfter, hheader]
  rfl

/-- The blocks of a map are read if they are there. -/
theorem sparseExtensions_of_mapBlocks (hb : MapBlocks map b map') (hwhole : c.feed.Whole)
    (hbytes : c.feed.bytes = b ++ bytes) :
    ∃ c', c.sparseExtensions map = (.ok map', c') ∧ c'.feed.Whole ∧ c'.feed.bytes = bytes ∧
      c'.position = c.position + b.length := by
  -- On the blocks: each is read where the one before it ends.
  induction hb generalizing c with
  | last hlength hadd hlast =>
    obtain ⟨c₁, hblock, hwhole₁, hbytes₁⟩ := readBlock_of_append hwhole hbytes hlength
    obtain ⟨hposition, -⟩ := position_readBlock hblock
    refine ⟨c₁.countBlock, ?_, by simpa using hwhole₁, by simpa using hbytes₁, ?_⟩
    · rw [sparseExtensions, hblock]
      simp only [hadd, hlast, if_false, Bool.false_eq_true]
    · rw [hlength]
      exact hposition
  | more hlength hadd hmore _ ih =>
    rw [List.append_assoc] at hbytes
    obtain ⟨c₁, hblock, hwhole₁, hbytes₁⟩ := readBlock_of_append hwhole hbytes hlength
    obtain ⟨hposition, -⟩ := position_readBlock hblock
    obtain ⟨c', hmap, hwhole', hbytes', hposition'⟩ :=
      ih (c := c₁.countBlock) (by simpa using hwhole₁) (by simpa using hbytes₁)
    refine ⟨c', ?_, hwhole', hbytes', ?_⟩
    · rw [sparseExtensions, hblock]
      simp only [hadd, hmore, if_true]
      exact hmap
    · rw [List.length_append]
      omega

/-- A sparse map that is there is read. -/
theorem sparseMap_of_mapRest (hr : MapRest h size b) (hwhole : c.feed.Whole)
    (hbytes : c.feed.bytes = b ++ bytes) :
    ∃ c', c.sparseMap h size = (.ok (), c') ∧ c'.feed.Whole ∧ c'.feed.bytes = bytes ∧
      c'.position = c.position + b.length := by
  cases hr with
  | @inHeader map hgnu hadd hcontinues hcheck =>
    refine ⟨c, sparseMap_eq_ok_iff.mpr ⟨hgnu, map, map, hadd, ?_, hcheck⟩, hwhole, hbytes, rfl⟩
    rw [hcontinues, if_neg (by simp)]
  | @inBlocks _ map map' hgnu hadd hcontinues hblocks hcheck =>
    obtain ⟨c', hmap, hafter⟩ := sparseExtensions_of_mapBlocks hblocks hwhole hbytes
    refine ⟨c', sparseMap_eq_ok_iff.mpr ⟨hgnu, map, map', hadd, ?_, hcheck⟩, hafter⟩
    rw [hcontinues, if_pos rfl]
    exact hmap

/-- A member is found behind the headers that describe it, if its content is there. -/
theorem finds_of_heads (hh : Heads said heads m) (hc : c.StandsBefore (heads ++ bytes))
    (hfits : padded m.size ≤ bytes.length) :
    ∃ c', Finds said c m c' ∧ c'.feed.Whole ∧ c'.feed.bytes = bytes ∧
      c'.position = c.next + heads.length := by
  induction hh generalizing c with
  | plain his hext hflag =>
    obtain ⟨c', hheader, hwhole, hbytes⟩ := hc.header his hfits
    refine ⟨c', .plain hheader hext hflag, hwhole, hbytes, ?_⟩
    rw [his.length]
    exact (position_header hheader).1
  | sparse his hext hflag hrest =>
    rw [List.append_assoc] at hc
    obtain ⟨c₁, hheader, hwhole₁, hbytes₁⟩ :=
      hc.header his (by rw [List.length_append]; exact Nat.le_trans hfits (Nat.le_add_left _ _))
    obtain ⟨c₂, hmap, hwhole₂, hbytes₂, hposition₂⟩ := sparseMap_of_mapRest hrest hwhole₁ hbytes₁
    have hposition₁ := (position_header hheader).1
    have hlength := his.length
    refine ⟨c₂, .sparse hheader hext hflag hmap, hwhole₂, hbytes₂, ?_⟩
    rw [List.length_append]
    omega
  | @extension said h data padding rest m his hext hrep hfilled _ ih =>
    simp only [List.append_assoc] at hc
    have hlimit := hc.limit
    have hlength := his.length
    have hle := le_padded data.length
    simp only [List.length_append] at hlimit
    obtain ⟨c₁, hheader, hwhole₁, hbytes₁⟩ :=
      hc.header his (by simp only [List.length_append]; omega)
    obtain ⟨hposition₁, hahead₁, -⟩ := position_header hheader
    obtain ⟨c₂, htake, hwhole₂, hbytes₂, hposition₂, htarget₂⟩ :=
      take_of_append hwhole₁ hbytes₁ (by decide : 0 < copyUnit)
    have hahead₂ := ahead_of_read hposition₂ htarget₂ (by omega)
    -- The padding of the data is what is left before the headers that follow.
    have hnext₂ : c₂.next = c.next + blockSize + padded data.length := by
      unfold Cursor.next at hposition₁ ⊢
      omega
    have hstands : c₂.StandsBefore (rest ++ bytes) :=
      ⟨hwhole₂, ⟨padding, hbytes₂, by omega⟩, by rw [List.length_append]; omega⟩
    obtain ⟨c', hfinds, hwhole', hbytes', hposition'⟩ := ih hstands hfits
    have hdata : c₁.extensionData data.length = (.ok data, c₂) :=
      extensionData_eq_ok_iff.mpr ⟨_, htake, by simp⟩
    refine ⟨c', .extension hheader hext hrep hdata hfinds, hwhole', hbytes', ?_⟩
    simp only [List.length_append]
    omega

end ImageBuild.Tar.Cursor
