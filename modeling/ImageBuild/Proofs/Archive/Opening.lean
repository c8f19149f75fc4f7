import ImageBuild.Proofs.Archive.Entries
import ImageBuild.Proofs.Stream.Reading

/-!
# `ImageBuild.Proofs.Archive.Opening`: streams that carry a tar stream

The first bytes of a stream decide how it is read. `Carries s bytes` says that a stream carries a
tar stream: as it is, if its first bytes are not taken for those of a compressed stream, or in
gzip members that are decoded to the end without a fault. In both cases the members are read from
a feed with these bytes that no fault ends (`Carries.opened`).
-/

set_option autoImplicit false

namespace ImageBuild

/-! ### Decoded gzip streams -/

/-- The pieces of a gzip member bring no fault of their own. -/
theorem Gzip.fault?_feedOf (pieces : List (Bytes × Bool)) (after : Feed) :
    (feedOf pieces after).fault? = after.fault? := by
  unfold feedOf
  induction pieces generalizing after with
  | nil => rfl
  | cons piece rest ih => exact ih _

/-- A feed is whole if what comes behind its pieces is. -/
theorem Gzip.whole_feedOf {pieces : List (Bytes × Bool)} {after : Feed} (h : after.Whole) :
    (feedOf pieces after).Whole := by
  unfold feedOf
  induction pieces generalizing after with
  | nil => exact h
  | cons piece rest ih => exact ih (.piece h)

/-- Where decoding stops there is a fault. -/
theorem Gzip.fault?_endOf_ne_none (d : Decoder) (phase : Phase) (halt : Halt) :
    (endOf d phase halt).fault? ≠ none := by
  unfold endOf
  cases halt with
  | fault f => simp [Feed.fault?]
  | dry => dsimp only; repeat' split <;> simp [Feed.fault?]

/-- What is decoded without a fault can be read to its end. -/
theorem Gzip.whole_members {fuel : Nat} {d : Decoder} (h : (members fuel d).fault? = none) :
    (members fuel d).Whole := by
  -- One member after the other. A member that stops early leaves its fault at the end.
  induction fuel generalizing d with
  | zero => exact whole_feedOf .ended
  | succ fuel ih =>
    rw [members] at h ⊢
    split at h
    · rw [fault?_feedOf] at h
      exact absurd h (fault?_endOf_ne_none _ _ _)
    · split at h
      · rw [fault?_feedOf] at h
        exact absurd h (fault?_endOf_ne_none _ _ _)
      · split at h
        · next hused =>
          rw [fault?_feedOf] at h
          simp only [Feed.fault?] at h
          rw [if_pos hused, h]
          exact whole_feedOf .ended
        · next hused =>
          rw [if_neg hused]
          exact ih h

namespace Archive

/-! ### What a stream carries -/

/-- The stream carries these bytes, uncompressed or in gzip members. -/
inductive Carries : Stream → Bytes → Prop
  | plain {s : Stream} : s.broken = false →
    detectCompression (s.bytes.take headerWindow) = .none →
    Carries s s.bytes
  | gzip {s rest : Stream} {front : Bytes} : s.readUpTo headerWindow = .ok (front, rest) →
    detectCompression front = .gzip → (Gzip.feed (rest.putBack front)).fault? = none →
    Carries s (Gzip.feed (rest.putBack front)).bytes

/-- Bytes that pass for no envelope are carried as they are. -/
theorem Carries.ofBytes {bytes : Bytes}
    (h : detectCompression (bytes.take headerWindow) = .none) :
      Carries (.ofBytes bytes) bytes := by
  have hbytes : (Stream.ofBytes bytes).bytes = bytes := by simp [Stream.bytes, Stream.ofBytes]
  have hplain := Carries.plain (s := .ofBytes bytes) rfl (by rw [hbytes]; exact h)
  rwa [hbytes] at hplain

/-- What a stream carries is what its members are read from. -/
theorem Carries.opened {s : Stream} {bytes : Bytes} (h : Carries s bytes) :
    ∃ feed, opened s = .ok feed ∧ feed.Whole ∧ feed.bytes = bytes := by
  cases h with
  | plain hbroken hdetect =>
    obtain ⟨rest, hread, hrest, hbytes⟩ := Stream.readUpTo_eq hbroken headerWindow
    obtain ⟨hwhole, hfeed⟩ :=
      Feed.whole_ofStream (s := rest.putBack (s.bytes.take headerWindow)) hrest
    refine ⟨_, ?_, hwhole, hfeed.trans hbytes⟩
    unfold Archive.opened
    rw [hread]
    dsimp only
    rw [hdetect]
    rfl
  | @gzip rest front hread hdetect hfault =>
    refine ⟨Gzip.feed (rest.putBack front), ?_, Gzip.whole_members hfault, rfl⟩
    unfold Archive.opened
    rw [hread]
    dsimp only
    rw [hdetect]
    rfl

/-- The members are read from a feed that no fault ends, or there is a fault at its end. -/
theorem whole_of_opened {s : Stream} {feed : Feed} (h : opened s = .ok feed)
    (hfault : feed.fault? = none) :
    feed.Whole := by
  unfold opened at h
  split at h
  · cases h
  · next front rest _ =>
    unfold decoded at h
    split at h
    · cases h
      exact (Feed.whole_ofStream (by simpa using hfault)).1
    · cases h
      exact Gzip.whole_members hfault
    · cases h

end Archive
end ImageBuild
