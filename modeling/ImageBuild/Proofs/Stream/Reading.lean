import ImageBuild.Stream

/-!
# `ImageBuild.Proofs.Stream.Reading`: what reading a feed returns

How a feed is cut into pieces decides what single reads return. For a reading of a wanted number
of bytes it does not matter, and this module says so:

* `Stream.SameBytes.readUpTo`: of streams with the same bytes and the same end, the same is read.
* `Feed.Orderly.readUpTo_eq`: a feed is orderly if its fault comes behind all of its bytes. A
  reading of it returns the next bytes, or the fault if it has to go that far.
* `Feed.Whole.readUpTo_eq`: of a feed that ends without a fault, a reading returns the next bytes,
  as many as are wanted or as there are, and leaves the others.
* `Feed.readUpTo_spec`: of any feed, a reading returns bytes that the feed has next, as many as
  are wanted if it says that all were there. A fault can take bytes along that were not handed out
  yet, so of those that are left nothing more is said than that they come next.
* `Feed.fault?_readUpTo`: how a feed ends stays the same, and where a reading comes to the end,
  that is not a fault.
-/

set_option autoImplicit false

namespace ImageBuild

/-! ### Streams -/

/-- Bytes that are taken off chunks are the first ones, and the others are left. -/
theorem Stream.takeChunks_spec (n : Nat) (chunks : List Bytes) :
    (takeChunks n chunks).1 = chunks.flatten.take n ∧
      (takeChunks n chunks).2.flatten = chunks.flatten.drop n := by
  induction chunks generalizing n with
  | nil => simp [takeChunks]
  | cons chunk rest ih =>
    rw [takeChunks, List.flatten_cons]
    by_cases hn : n = 0
    · simp [hn]
    · rw [if_neg hn]
      by_cases hlt : n < chunk.length
      · rw [if_pos hlt, List.take_append_of_le_length (by omega),
          List.drop_append_of_le_length (by omega)]
        simp
      · obtain ⟨htaken, hleft⟩ := ih (n - chunk.length)
        rw [if_neg hlt, List.take_append, List.drop_append, List.take_of_length_le (by omega),
          List.drop_of_length_le (by omega)]
        simp [htaken, hleft]

/-- What a stream is looked into for stands at its front. Put back, it makes the stream's bytes
again. -/
theorem Stream.readUpTo_spec {s rest : Stream} {n : Nat} {front : Bytes}
    (h : s.readUpTo n = .ok (front, rest)) :
    front = s.bytes.take n ∧ rest.broken = s.broken ∧ (rest.putBack front).bytes = s.bytes := by
  obtain ⟨htaken, hleft⟩ := takeChunks_spec n s.chunks
  unfold Stream.readUpTo at h
  dsimp only at h
  split at h
  · cases h
  · cases h
    refine ⟨htaken, rfl, ?_⟩
    unfold putBack Stream.bytes
    rw [List.flatten_cons, htaken, hleft, List.take_append_drop]

/-- A stream that does not break is looked into without any effect on what it holds. -/
theorem Stream.readUpTo_eq {s : Stream} (h : s.broken = false) (n : Nat) :
    ∃ rest, s.readUpTo n = .ok (s.bytes.take n, rest) ∧ rest.broken = false ∧
      (rest.putBack (s.bytes.take n)).bytes = s.bytes := by
  have hread : s.readUpTo n =
      .ok ((takeChunks n s.chunks).1, { s with chunks := (takeChunks n s.chunks).2 }) := by
    unfold Stream.readUpTo
    simp [h]
  obtain ⟨hfront, hbroken, hbytes⟩ := readUpTo_spec hread
  rw [hfront] at hread hbytes
  exact ⟨_, hread, hbroken.trans h, hbytes⟩

/-- Of a stream that has so many bytes they are read, also if the stream breaks off behind
them. -/
theorem Stream.exists_readUpTo {s : Stream} {n : Nat} (h : n ≤ s.bytes.length) :
    ∃ rest, s.readUpTo n = .ok (s.bytes.take n, rest) := by
  have htaken : (takeChunks n s.chunks).1 = s.bytes.take n := (takeChunks_spec n s.chunks).1
  refine ⟨{ s with chunks := (takeChunks n s.chunks).2 }, ?_⟩
  unfold Stream.readUpTo
  simp [htaken, Nat.min_eq_left h]

/-- A front that was put back is read again. -/
theorem Stream.readUpTo_putBack {n : Nat} (hn : 0 < n) {front : Bytes} (hlen : front.length = n)
    (rest : Stream) : (rest.putBack front).readUpTo n = .ok (front, rest) := by
  have hmore : takeChunks 0 rest.chunks = ([], rest.chunks) := by
    cases rest.chunks <;> rfl
  have htaken : takeChunks n (front :: rest.chunks) = (front, rest.chunks) := by
    rw [takeChunks, if_neg (Nat.ne_of_gt hn), if_neg (by omega), hlen, Nat.sub_self, hmore]
    simp
  unfold Stream.readUpTo putBack
  rw [htaken]
  simp [hlen]

/-- The streams hold the same bytes and come to the same end. How the bytes are cut into chunks
may differ. -/
structure Stream.SameBytes (s s' : Stream) : Prop where
  bytes : s.bytes = s'.bytes
  broken : s.broken = s'.broken

/-- The same bytes are found at the front, and put back they make streams with the same bytes, or
neither stream can be looked into. -/
theorem Stream.SameBytes.readUpTo {s s' : Stream} (h : s.SameBytes s') (n : Nat) :
    (∃ f, s.readUpTo n = .error f ∧ s'.readUpTo n = .error f) ∨
      ∃ rest rest', s.readUpTo n = .ok (s.bytes.take n, rest) ∧
        s'.readUpTo n = .ok (s.bytes.take n, rest') ∧
        (rest.putBack (s.bytes.take n)).SameBytes (rest'.putBack (s.bytes.take n)) := by
  have htaken : (takeChunks n s'.chunks).1 = (takeChunks n s.chunks).1 := by
    rw [(takeChunks_spec n s.chunks).1, (takeChunks_spec n s'.chunks).1]
    exact congrArg (List.take n) h.bytes.symm
  -- Whether the front is short and whether the stream is broken is the same for both.
  by_cases hshort : ((takeChunks n s.chunks).1.length < n && s.broken) = true
  · refine Or.inl ⟨.broken, ?_, ?_⟩ <;> unfold Stream.readUpTo <;> dsimp only
    · rw [if_pos hshort]
    · rw [htaken, ← h.broken, if_pos hshort]
  · have hread : s.readUpTo n =
        .ok ((takeChunks n s.chunks).1, { s with chunks := (takeChunks n s.chunks).2 }) := by
      unfold Stream.readUpTo
      exact if_neg hshort
    have hread' : s'.readUpTo n =
        .ok ((takeChunks n s.chunks).1, { s' with chunks := (takeChunks n s'.chunks).2 }) := by
      unfold Stream.readUpTo
      dsimp only
      rw [htaken, ← h.broken]
      exact if_neg hshort
    obtain ⟨hfront, hbroken, hbytes⟩ := readUpTo_spec hread
    obtain ⟨-, hbroken', hbytes'⟩ := readUpTo_spec hread'
    rw [hfront] at hread hread' hbytes hbytes'
    refine Or.inr ⟨_, _, hread, hread', ⟨?_, ?_⟩⟩
    · rw [hbytes, hbytes', h.bytes]
    · exact hbroken.trans (h.broken.trans hbroken'.symm)

end ImageBuild

namespace ImageBuild.Feed

variable {feed next : Feed}

/-- The size of a feed counts its bytes. -/
theorem size_eq (feed : Feed) : feed.size = feed.bytes.length := by
  induction feed with
  | ended fault urgent => rfl
  | piece b joins next ih => simp [size, bytes, ih]

/-- A part of a piece that is left stands before the pieces after it, unless an urgent fault takes
it. -/
theorem bytes_remainder_prefix (rest : Bytes) (next : Feed) :
    (remainder rest next).bytes <+: rest ++ next.bytes := by
  unfold remainder
  split
  · exact List.nil_prefix
  · exact List.prefix_rfl

/-- What is read of a stream is the stream's bytes. -/
theorem bytes_ofStream (s : Stream) : (ofStream s).bytes = s.bytes := by
  obtain ⟨chunks, broken⟩ := s
  unfold ofStream Stream.bytes
  induction chunks with
  | nil => rfl
  | cons chunk rest ih => simp [bytes, ← ih]

/-- What is read of a stream ends with a fault if the stream breaks off. -/
@[simp]
theorem fault?_ofStream (s : Stream) :
    (ofStream s).fault? = if s.broken then some .broken else none := by
  obtain ⟨chunks, broken⟩ := s
  unfold ofStream
  induction chunks with
  | nil => rfl
  | cons chunk rest ih => exact ih

/-! ### Any feed -/

/-- A piece by itself is read at once, whatever comes after it. -/
theorem readUpTo_piece {b : Bytes} {n unit : Nat} (hn : 0 < n) (hlen : b.length = n)
    (hunit : n ≤ unit) (next : Feed) :
    (piece b false next).readUpTo unit n = (b, .full, next) := by
  obtain ⟨byte, more, rfl⟩ := List.exists_cons_of_length_pos (hlen ▸ hn)
  have hread : (piece (byte :: more) false next).read (min unit n) =
      (.ok (byte :: more), next) := by
    rw [read, if_neg (by simp), if_neg (by omega)]
    rfl
  unfold readUpTo
  rw [readInto, if_neg (by omega), hread]
  dsimp only
  rw [readInto, if_pos (by omega)]
  simp

/-- A read returns at most as many bytes as are wanted, and these come next. It returns none only
at the end. -/
theorem read_spec {n : Nat} (hn : 0 < n) {b : Bytes} {after : Feed}
    (h : feed.read n = (.ok b, after)) :
    b ++ after.bytes <+: feed.bytes ∧ b.length ≤ n ∧ (b = [] → after.bytes = []) := by
  induction feed generalizing n b with
  | ended fault urgent =>
    cases fault with
    | none => cases h; simp [bytes]
    | some fault => cases h
  | piece c joins next ih =>
    rw [read] at h
    by_cases hempty : c = []
    · subst hempty
      simpa [bytes] using ih hn h
    · have hpos : 0 < c.length := List.length_pos_iff.mpr hempty
      rw [if_neg (by simpa using hempty)] at h
      split at h
      · -- A part of the piece is returned.
        cases h
        have hrest := bytes_remainder_prefix (c.drop n) next
        refine ⟨?_, List.length_take_le n c, fun hnil => ?_⟩
        · have := (List.prefix_append_right_inj (c.take n)).mpr hrest
          rwa [← List.append_assoc, List.take_append_drop] at this
        · have hlen := congrArg List.length hnil
          simp only [List.length_take, List.length_nil] at hlen
          omega
      · by_cases hjoin : (joins && decide (c.length < n)) = true
        · -- The whole piece is returned together with what the next read returns.
          rw [if_pos hjoin] at h
          simp only [Bool.and_eq_true, decide_eq_true_eq] at hjoin
          rcases hmore : next.read (n - c.length) with ⟨fault | more, after'⟩
          · rw [hmore] at h
            cases h
          · rw [hmore] at h
            cases h
            obtain ⟨hbytes, hlen, -⟩ := ih (by omega) hmore
            refine ⟨?_, by simp; omega, fun hnil => ?_⟩
            · rw [List.append_assoc]
              exact (List.prefix_append_right_inj c).mpr hbytes
            · simp only [List.append_eq_nil_iff] at hnil
              simp [hnil.1] at hpos
        · rw [if_neg hjoin] at h
          cases h
          exact ⟨List.prefix_rfl, by omega, fun hnil => by simp [hnil] at hpos⟩

/-- A reading that meets no fault returns at most as many bytes as are wanted, and these come
next. It returns all of them, or it comes to the end. -/
theorem readInto_spec {unit : Nat} (hunit : 0 < unit) {n : Nat} {collected got : List Bytes}
    {ending : Ending} {after : Feed} (h : feed.readInto unit n collected = (got, ending, after))
    (hending : ∀ f, ending ≠ .failed f) :
    ∃ b, got.reverse.flatten = collected.reverse.flatten ++ b ∧ b ++ after.bytes <+: feed.bytes ∧
      b.length ≤ n ∧ (ending = .full → b.length = n) ∧ (ending = .short → after.bytes = []) := by
  induction n using Nat.strongRecOn generalizing feed collected with
  | ind n ih =>
    rw [readInto] at h
    by_cases hn : n = 0
    · rw [if_pos hn] at h
      cases h
      exact ⟨[], by simp [hn]⟩
    · rw [if_neg hn] at h
      rcases hread : feed.read (min unit n) with ⟨fault | piece, after'⟩
      · rw [hread] at h
        cases h
        exact absurd rfl (hending _)
      · rw [hread] at h
        obtain ⟨hbytes, hlen, hnil⟩ := read_spec (by omega) hread
        cases piece with
        | nil =>
          cases h
          exact ⟨[], by simp, by simpa using hbytes, by simp, by simp, fun _ => hnil rfl⟩
        | cons b bs =>
          -- The bytes of one read are followed by those of the further reads.
          obtain ⟨more, hgot, hmore, hle, hfull, hshort⟩ :=
            ih (n - (b :: bs).length) (by simp only [List.length_cons]; omega) h
          refine ⟨(b :: bs) ++ more, by simpa using hgot, ?_, ?_, fun hf => ?_, hshort⟩
          · rw [List.append_assoc]
            exact ((List.prefix_append_right_inj _).mpr hmore).trans hbytes
          · rw [List.length_append]; omega
          · rw [List.length_append, hfull hf]; omega

/-- A read without a fault takes the first bytes, and all of them if it comes up short. -/
theorem readUpTo_spec {unit : Nat} (hunit : 0 < unit) {n : Nat} {b : Bytes} {ending : Ending}
    {after : Feed} (h : feed.readUpTo unit n = (b, ending, after))
    (hending : ∀ f, ending ≠ .failed f) :
    b ++ after.bytes <+: feed.bytes ∧ b.length ≤ n ∧ (ending = .full → b.length = n) ∧
      (ending = .short → after.bytes = []) := by
  unfold readUpTo at h
  cases h
  obtain ⟨b, hb, hspec⟩ := readInto_spec hunit rfl hending
  simp only [List.reverse_nil, List.flatten_nil, List.nil_append] at hb
  rw [hb]
  exact hspec

/-! ### The fault at the end -/

/-- A part of a piece that is left ends as the pieces after it do. -/
@[simp]
theorem fault?_remainder (rest : Bytes) (next : Feed) :
    (remainder rest next).fault? = next.fault? := by
  unfold remainder
  split <;> rfl

/-- No read changes how a feed ends. -/
@[simp]
theorem fault?_read (n : Nat) (feed : Feed) : (feed.read n).2.fault? = feed.fault? := by
  induction feed generalizing n with
  | ended fault urgent => cases fault <;> rfl
  | piece b joins next ih =>
    rw [read]
    split
    · exact ih n
    · split
      · simp [fault?]
      · split
        · have hnext := ih (n - b.length)
          rcases hread : next.read (n - b.length) with ⟨fault | more, after⟩
          · rwa [hread] at hnext
          · rwa [hread] at hnext
        · rfl

/-- A read that returns nothing has met an end that is no fault. -/
theorem fault?_of_read_eq_nil {n : Nat} (hn : 0 < n) {after : Feed}
    (h : feed.read n = (.ok [], after)) : feed.fault? = none := by
  induction feed generalizing n with
  | ended fault urgent =>
    cases fault with
    | none => rfl
    | some fault => cases h
  | piece b joins next ih =>
    rw [read] at h
    cases b with
    | nil => exact ih hn h
    | cons byte bytes =>
      -- The read returns bytes of this piece.
      rw [if_neg (by simp)] at h
      obtain ⟨n, rfl⟩ := Nat.exists_eq_succ_of_ne_zero (Nat.ne_of_gt hn)
      split at h
      · cases h
      · split at h
        · rcases hread : next.read (n + 1 - (byte :: bytes).length) with ⟨fault | more, after'⟩
          · rw [hread] at h
            cases h
          · rw [hread] at h
            cases h
        · cases h

/-- Reading keeps the fault that waits at the end, and comes up short only without one. -/
theorem fault?_readInto {unit : Nat} (hunit : 0 < unit) {n : Nat} {collected got : List Bytes}
    {ending : Ending} {after : Feed} (h : feed.readInto unit n collected = (got, ending, after)) :
    after.fault? = feed.fault? ∧ (ending = .short → feed.fault? = none) := by
  induction n using Nat.strongRecOn generalizing feed collected with
  | ind n ih =>
    rw [readInto] at h
    split at h
    · cases h
      exact ⟨rfl, by simp⟩
    · have hkept := fault?_read (min unit n) feed
      rcases hread : feed.read (min unit n) with ⟨fault | bytes, next⟩
      · rw [hread] at h hkept
        cases h
        exact ⟨hkept, by simp⟩
      · rw [hread] at h hkept
        cases bytes with
        | nil =>
          cases h
          exact ⟨hkept, fun _ => fault?_of_read_eq_nil (by omega) hread⟩
        | cons b bs =>
          obtain ⟨hafter, hshort⟩ := ih _ (by simp only [List.length_cons]; omega) h
          exact ⟨hafter.trans hkept, fun hs => hkept.symm.trans (hshort hs)⟩

/-- No reading changes how a feed ends, and one that comes to the end without a fault shows that
there is none. -/
theorem fault?_readUpTo {unit : Nat} (hunit : 0 < unit) {n : Nat} {b : Bytes} {ending : Ending}
    {after : Feed} (h : feed.readUpTo unit n = (b, ending, after)) :
    after.fault? = feed.fault? ∧ (ending = .short → feed.fault? = none) := by
  unfold readUpTo at h
  cases h
  exact fault?_readInto hunit rfl

/-! ### Feeds that lose nothing -/

/-- No fault takes bytes along with it. Pieces are joined only if the feed ends without a fault,
and a fault at the end waits until all bytes were handed out. -/
inductive Orderly : Feed → Prop
  | ended {fault : Option StreamFault} : Orderly (.ended fault false)
  | piece {b : Bytes} {joins : Bool} {next : Feed} : Orderly next →
    (joins = true → next.fault? = none) →
    Orderly (.piece b joins next)

/-- What is read of a stream is orderly: every chunk is read by itself. -/
theorem orderly_ofStream (s : Stream) : (ofStream s).Orderly := by
  obtain ⟨chunks, broken⟩ := s
  unfold ofStream
  induction chunks with
  | nil => exact .ended
  | cons chunk rest ih => exact .piece ih fun hjoins => by cases hjoins

/-- No fault takes a part of a piece away. -/
theorem Orderly.remainder (h : next.Orderly) (rest : Bytes) :
    Feed.remainder rest next = .piece rest false next := by
  cases h <;> rfl

/-- How a reading ends that comes to the end of a feed. -/
def endingAt : Option StreamFault → Ending
  | none => .short
  | some fault => .failed fault

/-- What a read returns at the end of a feed. -/
def readAt : Option StreamFault → Except StreamFault Bytes
  | none => .ok []
  | some fault => .error fault

/-- A read returns some of the next bytes and leaves the others. If there are none it comes to the
end. -/
theorem Orderly.read (h : feed.Orderly) {n : Nat} (hn : 0 < n) :
    (feed.bytes = [] ∧ feed.read n = (readAt feed.fault?, .ended feed.fault? false)) ∨
    ∃ b after, b ≠ [] ∧ feed.read n = (.ok b, after) ∧ after.Orderly ∧
      b ++ after.bytes = feed.bytes ∧
      b.length ≤ n := by
  induction h generalizing n with
  | @ended fault => cases fault <;> exact Or.inl ⟨rfl, rfl⟩
  | @piece c joins next hnext hjoins ih =>
    rw [Feed.read]
    by_cases hempty : c = []
    · -- An empty piece is passed over.
      subst hempty
      exact ih hn
    · have hpos : 0 < c.length := List.length_pos_iff.mpr hempty
      rw [if_neg (by simpa using hempty)]
      refine Or.inr ?_
      by_cases hpart : n < c.length
      · rw [if_pos hpart, hnext.remainder]
        refine ⟨c.take n, _, fun hnil => ?_, rfl, .piece hnext fun h => (by cases h), ?_,
          List.length_take_le n c⟩
        · have hlen := congrArg List.length hnil
          simp only [List.length_take, List.length_nil] at hlen
          omega
        · simp [bytes, ← List.append_assoc]
      · rw [if_neg hpart]
        by_cases hjoin : (joins && decide (c.length < n)) = true
        · -- The next piece is read as well. What comes after it ends without a fault.
          rw [if_pos hjoin]
          simp only [Bool.and_eq_true, decide_eq_true_eq] at hjoin
          have hfault := hjoins hjoin.1
          rcases ih (n := n - c.length)
            (by omega) with ⟨hnone, hread⟩ | ⟨b, after, -, hread, hafter⟩
          · rw [hread, hfault]
            exact ⟨c ++ [], _, by simpa using hempty, rfl, .ended, by simp [bytes, hnone], by
              simp; omega⟩
          · rw [hread]
            obtain ⟨horderly, hbytes, hlen⟩ := hafter
            refine ⟨c ++ b, after, by simp [hempty], rfl, horderly, by simp [bytes, hbytes], ?_⟩
            rw [List.length_append]
            omega
        · rw [if_neg hjoin]
          exact ⟨c, next, hempty, rfl, hnext, rfl, by omega⟩

/-- An orderly feed is read as its bytes are, whatever its chunks. -/
theorem Orderly.readInto (h : feed.Orderly) {unit : Nat} (hunit : 0 < unit) (n : Nat)
    (collected : List Bytes) :
    ∃ got after, feed.readInto unit n collected =
        (got, if n ≤ feed.bytes.length then .full else endingAt feed.fault?, after) ∧
      got.reverse.flatten = collected.reverse.flatten ++ feed.bytes.take n ∧ after.Orderly ∧
      after.bytes = feed.bytes.drop n := by
  induction n using Nat.strongRecOn generalizing feed collected with
  | ind n ih =>
    rw [Feed.readInto]
    by_cases hn : n = 0
    · rw [if_pos hn]
      exact ⟨collected, feed, by simp [hn], by simp [hn], h, by simp [hn]⟩
    · rw [if_neg hn]
      rcases h.read (n := min unit n) (by omega) with
        ⟨hnone, hread⟩ | ⟨b, after, hne, hread, horderly, hbytes, hlen⟩
      · rw [hread, hnone, if_neg (by rw [List.length_nil]; omega)]
        cases feed.fault? with
        | none => exact ⟨collected, _, rfl, by simp, .ended, by simp [bytes]⟩
        | some fault => exact ⟨collected, _, rfl, by simp, .ended, by simp [bytes]⟩
      · obtain ⟨byte, bytes, rfl⟩ := List.exists_cons_of_ne_nil hne
        have hkept := fault?_read (min unit n) feed
        rw [hread] at hkept ⊢
        obtain ⟨got, after', hinto, hgot, horderly', hrest⟩ :=
          ih (n - (byte :: bytes).length) (by simp only [List.length_cons]; omega) horderly
            ((byte :: bytes) :: collected)
        -- Of what is wanted, this read returned a first part.
        have hle : (byte :: bytes).length ≤ n := by omega
        refine ⟨got, after', ?_, ?_, horderly', ?_⟩
        · dsimp only at hkept ⊢
          rw [hinto, hkept, ← hbytes, List.length_append]
          congr 2
          split <;> split <;> first | rfl | omega
        · rw [hgot, ← hbytes, List.take_append, List.take_of_length_le hle]
          simp
        · rw [hrest, ← hbytes, List.drop_append, List.drop_of_length_le hle, List.nil_append]

/-- A reading of an orderly feed returns the next bytes, as many as are wanted or as there are,
and leaves the others. It comes to the end only if there are fewer than are wanted. -/
theorem Orderly.readUpTo_eq (h : feed.Orderly) {unit : Nat} (hunit : 0 < unit) (n : Nat) :
    ∃ after, feed.readUpTo unit n =
        (feed.bytes.take n, if n ≤ feed.bytes.length then .full else endingAt feed.fault?,
          after) ∧
      after.Orderly ∧ after.bytes = feed.bytes.drop n ∧ after.fault? = feed.fault? := by
  obtain ⟨got, after, hinto, hgot, horderly, hrest⟩ := h.readInto hunit n []
  refine ⟨after, ?_, horderly, hrest, (fault?_readInto hunit hinto).1⟩
  unfold Feed.readUpTo
  rw [hinto]
  simpa using hgot

/-! ### Feeds without a fault -/

/-- The feed ends, and no fault ends it. -/
inductive Whole : Feed → Prop
  | ended : Whole (.ended none false)
  | piece {b : Bytes} {joins : Bool} {next : Feed} : Whole next → Whole (.piece b joins next)

/-- A whole feed has no fault. -/
theorem Whole.fault?_eq_none (h : feed.Whole) : feed.fault? = none := by
  induction h with
  | ended => rfl
  | piece _ ih => exact ih

/-- A whole feed is orderly. -/
theorem Whole.orderly (h : feed.Whole) : feed.Orderly := by
  induction h with
  | ended => exact .ended
  | piece hnext ih => exact .piece ih fun _ => hnext.fault?_eq_none

/-- An orderly feed is whole if no fault ends it. -/
theorem Orderly.whole (h : feed.Orderly) (hfault : feed.fault? = none) : feed.Whole := by
  induction h with
  | @ended fault =>
    obtain rfl : fault = none := hfault
    exact .ended
  | piece _ _ ih => exact .piece (ih hfault)

/-- What is read of an unbroken stream is the stream's bytes, and the feed ends with them. -/
theorem whole_ofStream {s : Stream} (h : s.broken = false) :
    (ofStream s).Whole ∧ (ofStream s).bytes = s.bytes :=
  ⟨(orderly_ofStream s).whole (by simp [h]), bytes_ofStream s⟩

/-- A reading of a feed without a fault returns the next bytes, as many as are wanted or as there
are, and leaves the others. -/
theorem Whole.readUpTo_eq (h : feed.Whole) {unit : Nat} (hunit : 0 < unit) (n : Nat) :
    ∃ after, feed.readUpTo unit n =
        (feed.bytes.take n, if n ≤ feed.bytes.length then .full else .short, after) ∧
      after.Whole ∧ after.bytes = feed.bytes.drop n := by
  obtain ⟨after, hread, horderly, hbytes, hfault⟩ := h.orderly.readUpTo_eq hunit n
  rw [h.fault?_eq_none] at hread hfault
  exact ⟨after, hread, horderly.whole hfault, hbytes⟩

end ImageBuild.Feed
