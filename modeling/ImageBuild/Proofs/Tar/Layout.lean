import ImageBuild.Tar.Member

/-!
# `ImageBuild.Proofs.Tar.Layout`: which bytes of a stream make a member

What is read for a member is laid out in blocks: the headers that describe it, with the data of
extensions and the blocks of a sparse map (`Heads`), then its content, and then padding. `Spans m
content bytes` says that bytes are all that of one member. How a reader comes to them is not said
here.

No member's bytes are the first part of another's (`Spans.unique`), because each block says how
the bytes go on. Nor do they start like the end of an archive (`Spans.not_zeros`). So a text that
goes on from whole members with a part of one does not consist of whole members, whatever way it
is divided.
-/

set_option autoImplicit false

namespace ImageBuild.Tar

open Cursor

variable {said : Extensions} {h h' : Header} {m m' : Member} {map map' map'' : SparseMap}
  {a b a' b' heads heads' content content' bytes bytes' : Bytes} {size size' : Nat}

/-! ### The bytes of a member -/

/-- The block is a header, and this is the size of the content behind it. -/
structure IsHeaderOf (said : Extensions) (h : Header) (size : Nat) : Prop where
  length : h.block.length = blockSize
  notZero : h.isZero = false
  size : contentSize h said = .ok size

/-- Blocks of a sparse map, each but the last of which announces another. -/
inductive MapBlocks : SparseMap → Bytes → SparseMap → Prop
  | last {block : Bytes} {map map' : SparseMap} : block.length = blockSize →
    map.addExtension block = .ok map' → SparseMap.extensionContinues block = false →
    MapBlocks map block map'
  | more {block rest : Bytes} {map map' map'' : SparseMap} : block.length = blockSize →
    map.addExtension block = .ok map' → SparseMap.extensionContinues block = true →
    MapBlocks map' rest map'' → MapBlocks map (block ++ rest) map''

/-- The bytes behind a sparse header are the rest of its map, and the map fits. -/
inductive MapRest (h : Header) (size : Nat) : Bytes → Prop
  | inHeader {map : SparseMap} : h.format = .gnu →
    (SparseMap.mk size 0 size).addHeader h = .ok map →
    SparseMap.headerContinues h = false → map.check h = .ok () → MapRest h size []
  | inBlocks {bytes : Bytes} {map map' : SparseMap} : h.format = .gnu →
    (SparseMap.mk size 0 size).addHeader h = .ok map → SparseMap.headerContinues h = true →
    MapBlocks map bytes map' → map'.check h = .ok () → MapRest h size bytes

/-- The headers that describe a member, after extensions that said something about it. There is
one rule for each kind of header. -/
inductive Heads : Extensions → Bytes → Member → Prop
  | plain {said : Extensions} {h : Header} {size : Nat} : IsHeaderOf said h size →
    isExtension h = false → h.typeFlag ≠ .sparse → Heads said h.block (memberOf h size said)
  | sparse {said : Extensions} {h : Header} {size : Nat} {rest : Bytes} : IsHeaderOf said h size →
    isExtension h = false → h.typeFlag = .sparse → MapRest h size rest →
    Heads said (h.block ++ rest) (memberOf h size said)
  | extension {said : Extensions} {h : Header} {data padding rest : Bytes} {m : Member} :
    IsHeaderOf said h data.length → isExtension h = true → repeated? h.typeFlag said = none →
    data.length + padding.length = padded data.length → Heads (say h.typeFlag data said) rest m →
    Heads said (h.block ++ (data ++ (padding ++ rest))) m

/-- The bytes are those of one member: its headers, its content, and padding that fills the last
block. -/
inductive Spans : Member → Bytes → Bytes → Prop
  | mk {m : Member} {heads content padding : Bytes} : Heads .none heads m →
    content.length = m.size →
    content.length + padding.length = padded m.size →
      Spans m content (heads ++ (content ++ padding))

/-! ### No member's bytes start with another's -/

/-- Two headers that start a text are the same, and the same comes behind them. -/
theorem IsHeaderOf.unique (hh : IsHeaderOf said h size) (hh' : IsHeaderOf said h' size')
    (heq : h.block ++ a = h'.block ++ b) : h = h' ∧ size = size' ∧ a = b := by
  obtain ⟨hblock, hrest⟩ := List.append_inj heq (hh.length.trans hh'.length.symm)
  obtain rfl : h = h' := congrArg Header.mk hblock
  have hsize := hh.size.symm.trans hh'.size
  cases hsize
  exact ⟨rfl, rfl, hrest⟩

/-- Two readings of the extension blocks at the front of some bytes are one. -/
theorem MapBlocks.unique (hb : MapBlocks map a map') (hb' : MapBlocks map a' map'')
    (heq : a ++ b = a' ++ b') : a = a' ∧ b = b' := by
  -- On the blocks of the first. The same block cannot both announce another and be the last.
  induction hb generalizing a' with
  | last hlength hadd hlast =>
    cases hb' with
    | last hlength' => exact List.append_inj heq (hlength.trans hlength'.symm)
    | more hlength' _ hmore =>
      rw [List.append_assoc] at heq
      obtain ⟨rfl, -⟩ := List.append_inj heq (hlength.trans hlength'.symm)
      rw [hlast] at hmore
      cases hmore
  | more hlength hadd hmore _ ih =>
    rw [List.append_assoc] at heq
    cases hb' with
    | last hlength' _ hlast =>
      obtain ⟨rfl, -⟩ := List.append_inj heq (hlength.trans hlength'.symm)
      rw [hlast] at hmore
      cases hmore
    | more hlength' hadd' _ hrest' =>
      rw [List.append_assoc] at heq
      obtain ⟨rfl, hafter⟩ := List.append_inj heq (hlength.trans hlength'.symm)
      cases hadd.symm.trans hadd'
      obtain ⟨rfl, rfl⟩ := ih hrest' hafter
      exact ⟨rfl, rfl⟩

/-- So are two readings of a sparse map. -/
theorem MapRest.unique (hr : MapRest h size a) (hr' : MapRest h size a')
    (heq : a ++ b = a' ++ b') :
    a = a' ∧ b = b' := by
  -- Both have the same header, and that says whether blocks of the map come behind it.
  cases hr with
  | inHeader _ _ hcontinues =>
    cases hr' with
    | inHeader => exact ⟨rfl, heq⟩
    | inBlocks _ _ hcontinues' => rw [hcontinues] at hcontinues'; cases hcontinues'
  | inBlocks _ hadd hcontinues hblocks =>
    cases hr' with
    | inHeader _ _ hcontinues' => rw [hcontinues] at hcontinues'; cases hcontinues'
    | inBlocks _ hadd' _ hblocks' =>
      cases hadd.symm.trans hadd'
      exact hblocks.unique hblocks' heq

/-- So are two readings of the headers of a member. -/
theorem Heads.unique (hh : Heads said heads m) (hh' : Heads said heads' m')
    (heq : heads ++ b = heads' ++ b') : heads = heads' ∧ m = m' ∧ b = b' := by
  -- On the headers of the first. The second has the same first header, so it is of the same kind.
  induction hh generalizing heads' m' with
  | plain hheader hext hflag =>
    cases hh' with
    | plain hheader' =>
      obtain ⟨rfl, rfl, rfl⟩ := hheader.unique hheader' heq
      exact ⟨rfl, rfl, rfl⟩
    | sparse hheader' _ hflag' =>
      rw [List.append_assoc] at heq
      obtain ⟨rfl, -⟩ := hheader.unique hheader' heq
      exact absurd hflag' hflag
    | extension hheader' hext' =>
      rw [List.append_assoc] at heq
      obtain ⟨rfl, -⟩ := hheader.unique hheader' heq
      exact absurd hext' (by simp [hext])
  | sparse hheader hext hflag hmap =>
    rw [List.append_assoc] at heq
    cases hh' with
    | plain hheader' _ hflag' =>
      obtain ⟨rfl, -⟩ := hheader.unique hheader' heq
      exact absurd hflag hflag'
    | sparse hheader' _ _ hmap' =>
      rw [List.append_assoc] at heq
      obtain ⟨rfl, rfl, hafter⟩ := hheader.unique hheader' heq
      obtain ⟨rfl, rfl⟩ := hmap.unique hmap' hafter
      exact ⟨rfl, rfl, rfl⟩
    | extension hheader' hext' =>
      rw [List.append_assoc] at heq
      obtain ⟨rfl, -⟩ := hheader.unique hheader' heq
      exact absurd hext' (by simp [hext])
  | extension hheader hext _ hlength _ ih =>
    simp only [List.append_assoc] at heq
    cases hh' with
    | plain hheader' hext' =>
      obtain ⟨rfl, -⟩ := hheader.unique hheader' heq
      exact absurd hext (by simp [hext'])
    | sparse hheader' hext' =>
      rw [List.append_assoc] at heq
      obtain ⟨rfl, -⟩ := hheader.unique hheader' heq
      exact absurd hext (by simp [hext'])
    | extension hheader' _ _ hlength' hrest' =>
      simp only [List.append_assoc] at heq
      -- The header says how long the data are, and that says how long the padding is.
      obtain ⟨rfl, hsize, hafter⟩ := hheader.unique hheader' heq
      obtain ⟨rfl, hpadded⟩ := List.append_inj hafter hsize
      obtain ⟨rfl, hheads⟩ := List.append_inj hpadded (by omega)
      obtain ⟨rfl, rfl, rfl⟩ := ih hrest' hheads
      exact ⟨rfl, rfl, rfl⟩

/-- Two members whose bytes start the same text are the same. -/
theorem Spans.unique (hs : Spans m content bytes) (hs' : Spans m' content' bytes')
    (heq : bytes ++ b = bytes' ++ b') : bytes = bytes' ∧ b = b' := by
  cases hs with
  | mk hheads hsize hpadding =>
    cases hs' with
    | mk hheads' hsize' hpadding' =>
      simp only [List.append_assoc] at heq
      -- The same headers describe members of the same size.
      obtain ⟨rfl, rfl, hafter⟩ := hheads.unique hheads' heq
      obtain ⟨rfl, hpadded⟩ := List.append_inj hafter (hsize.trans hsize'.symm)
      obtain ⟨rfl, rfl⟩ := List.append_inj hpadded (by omega)
      exact ⟨rfl, rfl⟩

/-- A member starts with a block that does not end the archive. -/
theorem Heads.exists_block (hh : Heads said heads m) :
    ∃ h size rest, IsHeaderOf said h size ∧ heads = h.block ++ rest := by
  cases hh with
  | plain hheader => exact ⟨_, _, [], hheader, (List.append_nil _).symm⟩
  | sparse hheader => exact ⟨_, _, _, hheader, rfl⟩
  | extension hheader => exact ⟨_, _, _, hheader, rfl⟩

/-- Where a member starts there are no zeros that end the archive. -/
theorem Spans.not_zeros (hs : Spans m content bytes) (rest : Bytes) :
    ¬ List.replicate blockSize 0 <+: bytes ++ rest := by
  cases hs with
  | mk hheads =>
    obtain ⟨h, size, more, hheader, rfl⟩ := hheads.exists_block
    rintro ⟨after, heq⟩
    simp only [List.append_assoc] at heq
    obtain ⟨hzeros, -⟩ := List.append_inj heq (by rw [List.length_replicate, hheader.length])
    have hzero := hheader.notZero
    unfold Header.isZero at hzero
    rw [← hzeros] at hzero
    simp at hzero

/-- A member has bytes, those of its header at least. -/
theorem Spans.ne_nil (hs : Spans m content bytes) : bytes ≠ [] := by
  cases hs with
  | mk hheads =>
    obtain ⟨h, size, rest, hheader, rfl⟩ := hheads.exists_block
    have hlength := hheader.length
    intro hnil
    rw [List.append_eq_nil_iff, List.append_eq_nil_iff] at hnil
    rw [hnil.1.1] at hlength
    cases hlength

end ImageBuild.Tar
