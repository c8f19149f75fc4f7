import ImageBuild.Proofs.Archive.Packing
import ImageBuild.Proofs.Context.Materialized
import ImageBuild.Proofs.Tar.Alike

/-!
# `ImageBuild.Proofs.Context.Chunks`: reads of any size

A stream from outside is read in chunks that nobody chooses: a pipe returns what the writer has
written so far. Of a stream that is not compressed only the bytes count, and whether it ends or
breaks off behind them.

The listing of a stream is the same for cursors that are alike (`listing_of_alike`), and unpacking
is unpacking a listing, so the tree is the same too, step by step up to the fault that ends the
run.

* `extract_of_sameBytes`: unpacking does the same.
* `contextFromStream_of_sameBytes`: so does a build context, unpacked or stored as the recipe.
* `readSizes_never_matter`: both, as one statement.

A compressed stream is not of this kind. A decompressor may lose the bytes that it has decoded but
not handed out when the stream breaks off, and how many these are depends on the chunks.
-/

set_option autoImplicit false

namespace ImageBuild

/-! ### Unpacking -/

namespace Archive

open Tar

variable {c d : Cursor} {s s' : Stream}

/-- The same is read of a member's content. -/
theorem readEntry_of_alike (h : c.Alike d) (m : Member) :
    Cursor.Agree (readEntry m c) (readEntry m d) := by
  unfold readEntry
  cases m.kind with
  | directory | other => exact h.agree _
  | file =>
    obtain ⟨b, ending, c', d', hc, hd, h'⟩ := h.content m.size
    rw [hc, hd]
    exact h'.agree _

/-- The same entries are listed, with the same fault behind them. -/
theorem listing_of_alike (h : c.Alike d) : listing c = listing d := by
  -- On what is left of the first feed, which each member makes smaller.
  induction hsize : c.feed.size using Nat.strongRecOn generalizing c d with
  | ind n ih =>
    obtain ⟨found, c₁, d₁, hc, hd, h₁⟩ := h.nextMember
    rw [listing.eq_def c, listing.eq_def d, hc, hd]
    rcases found with f | _ | m
    · rfl
    · rfl
    · obtain ⟨entry, c₂, d₂, hentry, hentry', h₂⟩ := readEntry_of_alike h₁ m
      have hnext := Cursor.size_next_lt hc
      have hread : c₂.feed.size ≤ c₁.feed.size := by
        have hless := size_readEntry_le m c₁
        rwa [hentry] at hless
      have hrest : listing c₂ = listing d₂ := by
        refine ih _ ?_ h₂ rfl
        simp only [blockSize] at hnext
        omega
      dsimp only
      rw [hentry, hentry', hrest]

/-- Streams with the same bytes that are not compressed are opened before the same members. -/
theorem opened_of_sameBytes (h : s.SameBytes s')
    (hplain : detectCompression (s.bytes.take headerWindow) = .none) :
    (∃ f, opened s = .error f ∧ opened s' = .error f) ∨
      ∃ feed feed', opened s = .ok feed ∧ opened s' = .ok feed' ∧
        (Cursor.start feed).Alike (.start feed') := by
  unfold opened
  rcases h.readUpTo headerWindow with ⟨f, hread, hread'⟩ | ⟨rest, rest', hread, hread', hsame⟩
  · rw [hread, hread']
    exact Or.inl ⟨.unreadable f, rfl, rfl⟩
  · rw [hread, hread']
    dsimp only
    rw [hplain]
    refine Or.inr ⟨_, _, rfl, rfl, ?_⟩
    refine .start (Feed.orderly_ofStream _) (Feed.orderly_ofStream _) ?_ ?_
    · rw [Feed.bytes_ofStream, Feed.bytes_ofStream, hsame.bytes]
    · rw [Feed.fault?_ofStream, Feed.fault?_ofStream, hsame.broken]

/-- Unpacking has the same result and leaves the same tree, whatever it ends with. -/
theorem extract_of_sameBytes (h : s.SameBytes s')
    (hplain : detectCompression (s.bytes.take headerWindow) = .none) (t : FileTree)
    (destination : Path) :
    extract t destination s = extract t destination s' := by
  rw [extract_eq, extract_eq]
  rcases opened_of_sameBytes h hplain with ⟨f, hopen, hopen'⟩ | ⟨feed, feed', hopen,
    hopen', halike⟩
  · rw [hopen, hopen']
  · rw [hopen, hopen']
    dsimp only
    rw [listing_of_alike halike]

end Archive

/-! ### Build contexts -/

namespace Context

open Archive (detectCompression headerWindow)

variable {s s' : Stream}

/-- What is stored is the bytes of the stream. -/
theorem storeStream_of_sameBytes (h : s.SameBytes s') (t : FileTree) (p : Path) :
    storeStream t p s = storeStream t p s' := by
  unfold storeStream
  rw [h.bytes, h.broken]

/-- The stream is found to be an archive or a recipe by the same bytes, and both are filled in
alike. -/
theorem fillContext_of_sameBytes (h : s.SameBytes s')
    (hplain : detectCompression (s.bytes.take headerWindow) = .none) (t : FileTree) (root : Path)
    (recipe : RecipeSource) : fillContext t root recipe s = fillContext t root recipe s' := by
  unfold fillContext
  rcases h.readUpTo headerWindow with ⟨f, hread, hread'⟩ | ⟨rest, rest', hread, hread', hsame⟩
  · rw [hread, hread']
  · rw [hread, hread']
    -- The window stands in front of both again, so it tells the same of what is unpacked.
    have hwindow : detectCompression
        ((rest.putBack (s.bytes.take headerWindow)).bytes.take headerWindow) = .none := by
      rw [(Stream.readUpTo_spec hread).2.2]
      exact hplain
    dsimp only
    rw [Archive.extract_of_sameBytes hsame hwindow]
    simp only [storeStream_of_sameBytes hsame]

/-- Only the bytes of a plain stream matter. -/
theorem contextFromStream_of_sameBytes (h : s.SameBytes s')
    (hplain : detectCompression (s.bytes.take headerWindow) = .none) (t : FileTree)
    (temporary : Path) (recipe : RecipeSource) :
    contextFromStream t temporary recipe s = contextFromStream t temporary recipe s' := by
  unfold contextFromStream
  simp only [fillContext_of_sameBytes h hplain]

/-- The sizes of reads never matter for a stream that is not compressed. Streams with the same
bytes, which both end or both break off behind them, are unpacked with the same report or the same
fault into the same tree, and they make the same build context. That goes for the bytes of a file
that a broken stream cuts off, for those are in the tree. -/
theorem readSizes_never_matter (h : s.SameBytes s')
    (hplain : detectCompression (s.bytes.take headerWindow) = .none) :
    (∀ t destination, Archive.extract t destination s = Archive.extract t destination s') ∧
    (∀ t temporary recipe,
      contextFromStream t temporary recipe s = contextFromStream t temporary recipe s') :=
  ⟨Archive.extract_of_sameBytes h hplain, contextFromStream_of_sameBytes h hplain⟩

/-- The header of a file of three bytes, and two of them. -/
def cutFile : Bytes := Tar.headerBlock [0x61] (.file 0o644 [1, 2, 3]) ++ [1, 2]

/-- The stream breaks off in the file. Read as one chunk or byte by byte, it is the same. -/
theorem readSizes_never_matter_cutFile :
    detectCompression ((Stream.mk [cutFile] true).bytes.take headerWindow) = .none ∧
    Archive.extract sharedTree ⟨[0x74]⟩ ⟨[cutFile], true⟩ =
      Archive.extract sharedTree ⟨[0x74]⟩ ⟨cutFile.map fun b => [b], true⟩ ∧
    contextFromStream sharedTree ⟨[0x74]⟩ .default ⟨[cutFile], true⟩ =
      contextFromStream sharedTree ⟨[0x74]⟩ .default ⟨cutFile.map fun b => [b], true⟩ := by
  have hsame : (Stream.mk [cutFile] true).SameBytes ⟨cutFile.map fun b => [b], true⟩ := by
    refine ⟨?_, rfl⟩
    show [cutFile].flatten = (cutFile.map fun b => [b]).flatten
    rw [List.flatten_singleton, ← List.flatMap_def, List.flatMap_singleton']
  have hplain : detectCompression ((Stream.mk [cutFile] true).bytes.take headerWindow) =
      .none := by
    decide +kernel
  obtain ⟨hextract, hcontext⟩ := readSizes_never_matter hsame hplain
  exact ⟨hplain, hextract _ _, hcontext _ _ _⟩

end Context
end ImageBuild
