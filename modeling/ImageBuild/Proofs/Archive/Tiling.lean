import ImageBuild.Proofs.Archive.Entries
import ImageBuild.Proofs.Tar.Search

/-!
# `ImageBuild.Proofs.Archive.Tiling`: the bytes that entries are read from

`Tiles entries bytes` says that bytes are those of members one after the other, and that the
entries are what a run reads of them. `IsArchiveOf feed entries` adds the end of the archive. This
is what reading a feed comes to: `isArchiveOf_of_listing` if the archive ends without a fault, and
`IsArchiveOf.listing_eq` in the other direction.

Content that comes short is not noticed where it is copied. It is noticed when the next member is
looked for, because what is left of the content and its padding has to be skipped first
(`passes_readEntry`). `Reads.passes` carries this along the entries, from the last to the first.

A feed has one division into members at most. So what ends with a part of a member is no archive
(`Tiles.append_part_ne`).
-/

set_option autoImplicit false

namespace ImageBuild.Archive

open Tar Tar.Cursor

variable {entries entries' : List Entry} {feed : Feed} {c c' c'' : Cursor} {m : Member}
  {b left content bytes more part tail tiles tiles' : Bytes}

/-! ### Whole members -/

/-- What a run reads of a member with this content: all of it if the member is a file, and nothing
else. -/
def entryOf (m : Member) (content : Bytes) : Entry where
  member := m
  content := if m.kind = .file then content else []
  fault? := none

/-- The bytes are those of members one after the other, and the entries are read of these. -/
inductive Tiles : List Entry → Bytes → Prop
  | nil : Tiles [] []
  | cons {m : Member} {content bytes more : Bytes} {rest : List Entry} : Spans m content bytes →
    Tiles rest more → Tiles (entryOf m content :: rest) (bytes ++ more)

/-- Whole members, and then the archive ends: with the feed, which no fault ends, or with a block
of zeros. -/
def IsArchiveOf (feed : Feed) (entries : List Entry) : Prop :=
  ∃ tiles tail, Tiles entries tiles ∧ feed.bytes = tiles ++ tail ∧
    (feed.fault? = none ∧ tail = [] ∨ List.replicate blockSize 0 <+: tail)

/-- Of files all content is read. -/
theorem Tiles.length_content (h : Tiles entries tiles) {e : Entry} (he : e ∈ entries)
    (hkind : e.member.kind = .file) : e.content.length = e.member.size := by
  induction h with
  | nil => cases he
  | cons hspans _ ih =>
    rcases List.mem_cons.mp he with rfl | he
    · cases hspans with
      | mk _ hsize =>
        unfold entryOf at hkind ⊢
        rw [if_pos hkind]
        exact hsize
    · exact ih he

/-- Whole members and a part of another are never whole members and the end of an archive. -/
theorem Tiles.append_part_ne (h : Tiles entries tiles) (h' : Tiles entries' tiles')
    (hspans : Spans m content bytes) (hpart : part <+: bytes) (hne : part ≠ [])
    (hproper : part ≠ bytes) (htail : tail = [] ∨ List.replicate blockSize 0 <+: tail) :
      tiles ++ part ≠ tiles' ++ tail := by
  -- On the first members, of which both have the same. Then the part stands against a member or
  -- the end.
  intro heq
  induction h generalizing entries' tiles' with
  | nil =>
    obtain ⟨missing, rfl⟩ := hpart
    cases h' with
    | nil =>
      -- The part would be the end, but a member starts neither with nothing nor with zeros.
      obtain rfl : part = tail := heq
      refine htail.elim hne fun hzeros => hspans.not_zeros [] ?_
      rw [List.append_nil]
      exact hzeros.trans (List.prefix_append _ _)
    | @cons _ _ bytes' more _ hspans' =>
      -- The part would hold all of a member, which then is the one that it is a part of.
      have hboth : (part ++ missing) ++ [] = bytes' ++ (more ++ (tail ++ missing)) := by
        rw [List.nil_append] at heq
        rw [heq]
        simp only [List.append_assoc, List.append_nil]
      have hrest := (hspans.unique hspans' hboth).2
      simp only [List.nil_eq, List.append_eq_nil_iff] at hrest
      exact hproper (by rw [hrest.2.2, List.append_nil])
  | cons hfirst _ ih =>
    rw [List.append_assoc] at heq
    cases h' with
    | nil =>
      rw [List.nil_append] at heq
      rcases htail with rfl | hzeros
      · exact hfirst.ne_nil (List.append_eq_nil_iff.mp heq).1
      · exact hfirst.not_zeros _ (heq ▸ hzeros)
    | cons hfirst' hrest' =>
      rw [List.append_assoc] at heq
      exact ih hrest' (hfirst.unique hfirst' heq).2

/-! ### What was read is whole -/

/-- An entry whose content did not break off ends before the next header, if its content is
there. -/
theorem position_readEntry (h : (readEntry m c).1.fault? = none) (hroom : m.size ≤ c.ahead) :
    c.position ≤ (readEntry m c).2.position ∧
      (readEntry m c).2.position ≤ c.position + m.size ∧
      (readEntry m c).2.next = c.next ∧ (readEntry m c).2.extent ≤ c.extent := by
  unfold readEntry at h ⊢
  cases hkind : m.kind with
  | directory | other => exact ⟨Nat.le_refl _, Nat.le_add_right _ _, rfl, Nat.le_refl _⟩
  | file =>
    rcases htake : c.content m.size with ⟨b, ending, c'⟩
    simp only [hkind] at h ⊢
    rw [htake] at h
    have hending : ∀ f, ending ≠ .failed f := by
      rintro f rfl
      cases h
    obtain ⟨-, hpos, htarget, hlen, -⟩ := take_spec (by decide) htake hending
    have hextent := extent_take_le (by decide) htake hending
    have hahead := ahead_of_read hpos htarget (by omega)
    unfold Cursor.next
    omega

/-- The content of an entry and its padding are there if what is left of them can be skipped. A
file may have been copied as far as it is there, but then nothing is left to be skipped. -/
theorem passes_readEntry (hfault : (readEntry m c).1.fault? = none)
    (hroom : c.ahead = padded m.size) (hleft : left.length = (readEntry m c).2.ahead)
    (h : Passes (readEntry m c).2 (left ++ b) c') :
    ∃ content padding, content.length = m.size ∧ content.length + padding.length = padded m.size ∧
      (readEntry m c).1 = entryOf m content ∧ Passes c (content ++ (padding ++ b)) c' := by
  have hle := le_padded m.size
  unfold readEntry at hfault hleft h ⊢
  unfold entryOf
  cases hkind : m.kind with
  | directory | other =>
    simp only [hkind] at hleft h
    refine ⟨left.take m.size, left.drop m.size, ?_, ?_, by simp, ?_⟩
    · rw [List.length_take]; omega
    · rw [← List.length_append, List.take_append_drop]; omega
    · rw [← List.append_assoc, List.take_append_drop]
      exact h
  | file =>
    simp only [hkind] at hfault hleft h ⊢
    rcases htake : c.content m.size with ⟨read, ending, c₁⟩
    rw [htake] at hfault hleft h
    have hending : ∀ f, ending ≠ .failed f := by
      rintro f rfl
      cases hfault
    obtain ⟨-, hposition, htarget, hlength, hfull, hshort⟩ := take_spec (by decide) htake hending
    have hahead := ahead_of_read hposition htarget (by omega)
    dsimp only at hfault hleft h
    have hread : read.length = m.size := by
      cases ending with
      | full => exact hfull rfl
      | failed f => exact absurd rfl (hending f)
      | short =>
        -- Nothing comes behind content that came short, so it was all of the content and its
        -- padding.
        have hnothing := h.bytes
        rw [hshort rfl, List.prefix_nil, List.append_eq_nil_iff, List.append_eq_nil_iff]
          at hnothing
        rw [hnothing.1.1, List.length_nil] at hleft
        omega
    refine ⟨read, left, hread, by omega, ?_, (passes_take (by decide) htake hending).trans h⟩
    rw [hfault, if_pos trivial]

/-- Entries that the end of the archive is found behind are there in full. -/
theorem Reads.passes (h : Reads c entries c') (hfaults : ∀ e ∈ entries, e.fault? = none)
    (hend : c'.nextMember = (.ok none, c'')) :
    ∃ left tiles c₁, left.length = c.ahead ∧ Tiles entries tiles ∧
      Passes c (left ++ tiles) c₁ ∧ c₁.AtEnd := by
  induction h with
  | nil =>
    obtain ⟨left, c₁, hleft, hpasses, hatEnd⟩ := passes_of_nextMember_none hend
    exact ⟨left, [], c₁, hleft, .nil, by simpa using hpasses, hatEnd⟩
  | @cons c c₁ c₂ m rest hnext hreads ih =>
    have hfault := hfaults _ List.mem_cons_self
    obtain ⟨before, heads, hbefore, hheads, hfound⟩ := (nextAfter_eq_some_iff.mp hnext).passes
    -- What is left of this entry is skipped before the entries after it.
    obtain ⟨left, tiles, c₃, hleft, htiles, hpasses, hatEnd⟩ :=
      ih (fun e he => hfaults e (List.mem_cons_of_mem _ he)) hend
    obtain ⟨content, padding, hsize, hpadded, hentry, hread⟩ :=
      passes_readEntry hfault (position_nextMember hnext).2.1 hleft hpasses
    rw [hentry]
    refine ⟨before, _, c₃, hbefore, .cons (.mk hheads hsize hpadded) htiles, ?_, hatEnd⟩
    simpa only [List.append_assoc] using hfound.trans hread

/-- A feed whose members are read without a fault consists of whole members. -/
theorem isArchiveOf_of_listing (h : listing (.start feed) = (entries, none))
    (hfaults : ∀ e ∈ entries, e.fault? = none) (hwhole : feed.fault? = none → feed.Whole) :
    IsArchiveOf feed entries := by
  rw [← List.append_nil entries] at h
  obtain ⟨c', hreads, hrest⟩ := listing_eq_append_iff.mp h
  obtain ⟨c'', hnone⟩ := listing_eq_nil_iff.mp hrest
  obtain ⟨left, tiles, c₁, hleft, htiles, hpasses, hend⟩ := hreads.passes hfaults hnone
  -- Nothing is skipped at the start.
  rw [ahead_start] at hleft
  obtain rfl : left = [] := List.length_eq_zero_iff.mp hleft
  rw [List.nil_append] at hpasses
  rcases hend with ⟨hfault, hnil⟩ | hzeros
  · have hfaultless : feed.fault? = none := hpasses.fault?.symm.trans hfault
    obtain ⟨-, hbytes⟩ := hpasses.whole (hwhole hfaultless)
    rw [hnil] at hbytes
    exact ⟨tiles, [], htiles, hbytes.symm, Or.inl ⟨hfaultless, rfl⟩⟩
  · -- A fault behind the zeros may take away what was not read, but the zeros were read.
    obtain ⟨more, hbytes⟩ := hpasses.bytes
    rw [List.append_assoc] at hbytes
    exact ⟨tiles, _, htiles, hbytes.symm, Or.inr (hzeros.trans (List.prefix_append _ _))⟩

/-! ### What is whole is read -/

/-- A whole member is read as its entry, and then comes what is behind it. -/
theorem readEntry_of_spans (hspans : Spans m content bytes) (h : c.StandsBefore (bytes ++ more)) :
    ∃ c' c'', c.nextMember = (.ok (some m), c') ∧ readEntry m c' = (entryOf m content, c'') ∧
      c''.StandsBefore more ∧ c'.position + padded m.size = c.next + bytes.length ∧
      c''.next = c.next + bytes.length := by
  cases hspans with
  | @mk heads _ padding hheads hsize hpadded =>
    simp only [List.append_assoc] at h
    have hlimit := h.limit
    have hle := le_padded m.size
    simp only [List.length_append] at hlimit ⊢
    obtain ⟨c', hfinds, hwhole, hbytes, hposition⟩ :=
      finds_of_heads hheads h (by simp only [List.length_append]; omega)
    have hahead := hfinds.position.2.1
    have hnext : c'.next = c.next + heads.length + padded m.size := by
      unfold Cursor.next at hposition ⊢
      omega
    unfold readEntry entryOf
    cases hkind : m.kind with
    | directory | other =>
      -- No content is read, and what is in its place is skipped later.
      refine ⟨c', c', hfinds.nextAfter, by simp, ⟨hwhole, ⟨content ++ padding, ?_, ?_⟩, by omega⟩,
        by omega, by omega⟩
      · rw [hbytes, List.append_assoc]
      · rw [List.length_append]; omega
    | file =>
      -- The content is read, and what is skipped later is the padding.
      obtain ⟨c'', htake, hwhole'', hbytes'', hposition'', htarget⟩ :=
        take_of_append hwhole hbytes (by decide : 0 < copyUnit)
      have hahead'' := ahead_of_read hposition'' htarget (by omega)
      have hnext'' : c''.next = c'.next := by
        unfold Cursor.next
        omega
      have hread : c'.content m.size = (content, .full, c'') := hsize ▸ htake
      refine ⟨c', c'', hfinds.nextAfter, ?_, ⟨hwhole'', ⟨padding, hbytes'', by omega⟩, by omega⟩,
        by omega, by omega⟩
      simp [hread, faultOf]

/-- Whole members are read as their entries, and then the archive ends. -/
theorem Tiles.listing_eq (h : Tiles entries tiles)
    (htail : tail = [] ∨ ∃ rest, tail = List.replicate blockSize 0 ++ rest)
    (hc : c.StandsBefore (tiles ++ tail)) : listing c = (entries, none) := by
  induction h generalizing c with
  | nil => exact listing_eq_nil_iff.mpr (hc.nextMember_of_end htail)
  | cons hspans _ ih =>
    rw [List.append_assoc] at hc
    obtain ⟨c', c'', hmember, hentry, hrest, -⟩ := readEntry_of_spans hspans hc
    rw [listing, hmember]
    dsimp only
    rw [hentry, ih hrest]

/-- A feed of whole members that no fault ends is read as their entries. -/
theorem IsArchiveOf.listing_eq (h : IsArchiveOf feed entries) (hwhole : feed.Whole)
    (hlimit : feed.bytes.length < Text.wordLimit) : listing (.start feed) = (entries, none) := by
  obtain ⟨tiles, tail, htiles, hbytes, hend⟩ := h
  have hstart : StandsBefore feed.bytes (.start feed) := .start hwhole hlimit
  rw [hbytes] at hstart
  refine htiles.listing_eq ?_ hstart
  exact hend.imp And.right fun ⟨rest, hrest⟩ => ⟨rest, hrest.symm⟩

end ImageBuild.Archive
