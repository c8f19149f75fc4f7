import ImageBuild.Proofs.Stream.Reading
import ImageBuild.Tar.Member

/-!
# `ImageBuild.Proofs.Tar.Alike`: members do not depend on how a stream is cut

The bytes of a stream that is not compressed come in chunks, and one read returns bytes of one
chunk. A member is read in many readings: what is left of the member before is skipped, headers
are read in blocks, and content a unit at a time. `Cursor.Alike c d` says that two cursors stand
at the same place before the same bytes and the same end, and it does not matter how these bytes
are cut.

`Alike.take` is the one lemma that looks at pieces. From there on every reading is put together
from others: each of them has the same result from both cursors and leaves cursors that are alike
(`Agree`), a reading that fails too. `Alike.nextMember` is what comes out of it for members.
-/

set_option autoImplicit false

namespace ImageBuild.Tar.Cursor

variable {c d : Cursor}

/-- The cursors stand at the same place, before the same bytes and the same end. How the bytes are
cut into pieces may differ. -/
structure Alike (c d : Cursor) : Prop where
  orderly : c.feed.Orderly ∧ d.feed.Orderly
  bytes : c.feed.bytes = d.feed.bytes
  fault : c.feed.fault? = d.feed.fault?
  position : c.position = d.position
  target : c.target = d.target

/-- Two readings have the same result and end at cursors that are alike. -/
def Agree {α : Type} (r q : α × Cursor) : Prop :=
  ∃ result c d, r = (result, c) ∧ q = (result, d) ∧ Alike c d

/-- Readings that come to this result and these cursors agree. -/
theorem Alike.agree {α : Type} (h : Alike c d) (result : α) : Agree (result, c) (result, d) :=
  ⟨result, c, d, rfl, rfl, h⟩

/-- At the start of feeds with the same bytes and the same end. -/
theorem Alike.start {feed feed' : Feed} (horderly : feed.Orderly) (horderly' : feed'.Orderly)
    (hbytes : feed.bytes = feed'.bytes) (hfault : feed.fault? = feed'.fault?) :
    Alike (.start feed) (.start feed') :=
  ⟨⟨horderly, horderly'⟩, hbytes, hfault, rfl, rfl⟩

/-- The next header is as far away from both. -/
theorem Alike.ahead (h : Alike c d) : c.ahead = d.ahead := by
  unfold Cursor.ahead
  rw [h.target, h.position]

/-- Moving the next header in the same way. -/
theorem Alike.withTarget (h : Alike c d) (w : UInt64) :
    Alike { c with target := w } { d with target := w } :=
  ⟨h.orderly, h.bytes, h.fault, h.position, rfl⟩

/-- Counting a block. -/
theorem Alike.countBlock (h : Alike c d) : Alike c.countBlock d.countBlock := by
  unfold Cursor.countBlock
  rw [h.target]
  exact h.withTarget _

/-! ### Bytes and blocks -/

/-- A reading returns the same bytes and ends in the same way, at the end or at a fault too. -/
theorem Alike.take (h : Alike c d) {unit : Nat} (hunit : 0 < unit) (n : Nat) :
    ∃ b ending c' d', c.take unit n = (b, ending, c') ∧ d.take unit n = (b, ending, d') ∧
      Alike c' d' := by
  obtain ⟨after, hread, horderly, hbytes, hfault⟩ := h.orderly.1.readUpTo_eq hunit n
  obtain ⟨after', hread', horderly', hbytes', hfault'⟩ := h.orderly.2.readUpTo_eq hunit n
  rw [← h.bytes, ← h.fault] at hread'
  rw [← h.bytes] at hbytes'
  rw [← h.fault] at hfault'
  unfold Cursor.take
  rw [hread, hread']
  refine ⟨_, _, _, _, rfl, rfl, ⟨horderly, horderly'⟩, ?_, ?_, ?_, h.target⟩
  · exact hbytes.trans hbytes'.symm
  · exact hfault.trans hfault'.symm
  · show c.position + _ = d.position + _
    rw [h.position]

/-- Skipping to where a header stands. -/
theorem Alike.skip (h : Alike c d) : Agree c.skip d.skip := by
  obtain ⟨b, ending, c', d', hc, hd, h'⟩ := h.take (by decide : 0 < skipUnit) c.ahead
  unfold Cursor.skip
  rw [← h.ahead, hc, hd]
  cases ending with
  | full | short | failed => exact h'.agree _

/-- Reading a block. -/
theorem Alike.readBlock (h : Alike c d) : Agree c.readBlock d.readBlock := by
  obtain ⟨b, ending, c', d', hc, hd, h'⟩ := h.take (by decide : 0 < blockSize) blockSize
  unfold Cursor.readBlock
  rw [hc, hd]
  cases ending with
  | full | failed => exact h'.agree _
  | short =>
    -- The end before a block and the end inside of one are told apart by the bytes.
    cases b with
    | nil | cons => exact h'.agree _

/-- Reading the data of an extension member. -/
theorem Alike.extensionData (h : Alike c d) (size : Nat) :
    Agree (c.extensionData size) (d.extensionData size) := by
  obtain ⟨b, ending, c', d', hc, hd, h'⟩ := h.take (by decide : 0 < copyUnit) size
  unfold Cursor.extensionData
  rw [hc, hd]
  cases ending with
  | full | short | failed => exact h'.agree _

/-! ### Headers -/

/-- The next header is moved behind the content of both, or of neither. -/
theorem Alike.advance (h : Alike c d) (size : Nat) :
    (∃ f, c.advance size = .error f ∧ d.advance size = .error f) ∨
      ∃ c' d', c.advance size = .ok c' ∧ d.advance size = .ok d' ∧ Alike c' d' := by
  unfold Cursor.advance
  rw [← h.target]
  split
  · exact Or.inl ⟨_, rfl, rfl⟩
  · split
    · exact Or.inl ⟨_, rfl, rfl⟩
    · exact Or.inr ⟨_, _, rfl, rfl, h.withTarget _⟩

/-- Reading a header. -/
theorem Alike.header (h : Alike c d) (said : Extensions) :
    Agree (c.header said) (d.header said) := by
  -- Each step of the reading ends both or neither.
  unfold Cursor.header
  obtain ⟨skipped, c₁, d₁, hc, hd, h₁⟩ := h.skip
  rw [hc, hd]
  cases skipped with
  | error f => exact h₁.agree _
  | ok =>
    dsimp only
    obtain ⟨block, c₂, d₂, hc, hd, h₂⟩ := h₁.readBlock
    rw [hc, hd]
    rcases block with f | _ | block
    · exact h₂.agree _
    · exact h₂.agree _
    · dsimp only
      split
      · exact h₂.agree _
      · have h₃ := h₂.countBlock
        cases contentSize ⟨block⟩ said with
        | error f => exact h₃.agree _
        | ok size =>
          dsimp only
          rcases h₃.advance size with ⟨f, hc, hd⟩ | ⟨c₄, d₄, hc, hd, h₄⟩
          · rw [hc, hd]
            exact h₃.agree _
          · rw [hc, hd]
            exact h₄.agree _

/-! ### Sparse maps -/

/-- Reading the extension blocks of a sparse map. -/
theorem Alike.sparseExtensions (h : Alike c d) (m : SparseMap) :
    Agree (c.sparseExtensions m) (d.sparseExtensions m) := by
  -- On what is left of the first feed, which each block of the map makes smaller.
  induction hsize : c.feed.size using Nat.strongRecOn generalizing c d m with
  | ind n ih =>
    rw [Cursor.sparseExtensions, Cursor.sparseExtensions]
    obtain ⟨block, c₁, d₁, hc, hd, h₁⟩ := h.readBlock
    rw [hc, hd]
    rcases block with f | _ | block
    · exact h₁.agree _
    · exact h₁.agree _
    · dsimp only
      have h₂ := h₁.countBlock
      cases m.addExtension block with
      | error f => exact h₂.agree _
      | ok m' =>
        dsimp only
        split
        · have hless := size_readBlock_lt c hc
          refine ih _ ?_ h₂ m' rfl
          simp only [blockSize, feed_countBlock] at hless ⊢
          omega
        · exact h₂.agree _

/-- Reading a sparse map. -/
theorem Alike.sparseMap (h : Alike c d) (block : Header) (size : Nat) :
    Agree (c.sparseMap block size) (d.sparseMap block size) := by
  unfold Cursor.sparseMap
  split
  · exact h.agree _
  · cases (SparseMap.mk size 0 size).addHeader block with
    | error f => exact h.agree _
    | ok m =>
      dsimp only
      by_cases hmore : SparseMap.headerContinues block = true
      · rw [if_pos hmore, if_pos hmore]
        obtain ⟨map, c₁, d₁, hc, hd, h₁⟩ := h.sparseExtensions m
        rw [hc, hd]
        cases map with
        | error | ok => exact h₁.agree _
      · rw [if_neg hmore, if_neg hmore]
        exact h.agree _

/-! ### Members -/

/-- Looking for a member behind extension members. -/
theorem Alike.nextAfter (h : Alike c d) (said : Extensions) :
    Agree (c.nextAfter said) (d.nextAfter said) := by
  -- On what is left of the first feed, which each header makes smaller.
  induction hsize : c.feed.size using Nat.strongRecOn generalizing c d said with
  | ind n ih =>
    rw [Cursor.nextAfter, Cursor.nextAfter]
    obtain ⟨found, c₁, d₁, hc, hd, h₁⟩ := h.header said
    rw [hc, hd]
    rcases found with f | _ | ⟨block, size⟩
    · exact h₁.agree _
    · exact h₁.agree _
    · dsimp only
      split
      · -- An extension, after which the search goes on.
        cases repeated? block.typeFlag said with
        | some f => exact h₁.agree _
        | none =>
          dsimp only
          have hheader := size_header_lt hc
          obtain ⟨data, c₂, d₂, hc, hd, h₂⟩ := h₁.extensionData size
          have hextension : c₂.feed.size ≤ c₁.feed.size := by
            have hless := size_extensionData size c₁
            rwa [hc] at hless
          rw [hc, hd]
          cases data with
          | error f => exact h₂.agree _
          | ok data =>
            refine ih _ ?_ h₂ _ rfl
            simp only [blockSize] at hheader
            omega
      · split
        · obtain ⟨map, c₂, d₂, hc, hd, h₂⟩ := h₁.sparseMap block size
          rw [hc, hd]
          cases map with
          | error | ok => exact h₂.agree _
        · exact h₁.agree _

/-- The next member is the same, or there is none for the same reason. -/
theorem Alike.nextMember (h : Alike c d) : Agree c.nextMember d.nextMember := h.nextAfter .none

/-- Of a member's content the same bytes are read, also if it breaks off. -/
theorem Alike.content (h : Alike c d) (size : Nat) :
    ∃ b ending c' d', c.content size = (b, ending, c') ∧ d.content size = (b, ending, d') ∧
      Alike c' d' :=
  h.take (by decide) size

end ImageBuild.Tar.Cursor
