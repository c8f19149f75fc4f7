import ImageBuild.Text.Utf8

/-!
# `ImageBuild.Stream`: streams and what reads of them return

A `Stream` comes from outside: chunks of bytes, then the end or a fault. One read returns bytes
of one chunk only, so how a stream is cut decides what single reads return, but not what a
whole reading returns.

A `Feed` is what a decoder makes of a stream: pieces, then the end or a fault. It differs from a
stream in two ways that a decompressor shows. A read that gets the whole of a piece and has room
may go on into the next (`joins`), so a fault there takes the bytes read before it; and an
`urgent` fault is raised by the next read even if a part of the last piece was not yet handed out.
-/

set_option autoImplicit false

namespace ImageBuild

/-- Why a stream cannot be read on. -/
inductive StreamFault
  /-- The reader itself failed. -/
  | broken
  | gzipHeader
  | gzipChecksum
  /-- A text in a header is longer than allowed. -/
  | gzipFieldTooLong
  /-- The compressed stream ends inside a header or trailer. -/
  | gzipEnd
  | deflateCorrupt
  | deflateIncomplete
  deriving DecidableEq, Repr

/-- The fault in words. -/
def StreamFault.message : StreamFault → String
  | .broken => "stream broke"
  | .gzipHeader => "invalid gzip header"
  | .gzipChecksum => "corrupt gzip stream does not have a matching checksum"
  | .gzipFieldTooLong => "gzip header field too long"
  | .gzipEnd => "unexpected end of file"
  | .deflateCorrupt => "corrupt deflate stream"
  | .deflateIncomplete => "incomplete deflate stream"

/-- A stream of bytes: the chunks that reads return parts of, and whether the reading then fails
instead of reaching the end. -/
structure Stream where
  chunks : List Bytes
  broken : Bool
  deriving Repr, DecidableEq

namespace Stream

/-- All bytes of the stream. -/
def bytes (s : Stream) : Bytes := s.chunks.flatten

/-- The stream in which the bytes come in one chunk. -/
def ofBytes (bytes : Bytes) : Stream := ⟨[bytes], false⟩

/-- Takes up to `n` bytes off the front of a list of chunks. -/
def takeChunks : (n : Nat) → List Bytes → Bytes × List Bytes
  | _, [] => ([], [])
  | n, chunk :: rest =>
    if n = 0 then ([], chunk :: rest)
    else if n < chunk.length then (chunk.take n, chunk.drop n :: rest)
    else
      let more := takeChunks (n - chunk.length) rest
      (chunk ++ more.1, more.2)

/-- Reads until `n` bytes or the end of the stream are there. -/
def readUpTo (n : Nat) (s : Stream) : Except StreamFault (Bytes × Stream) :=
  let taken := takeChunks n s.chunks
  if taken.1.length < n && s.broken then .error .broken
  else .ok (taken.1, { s with chunks := taken.2 })

/-- Puts bytes back in front of the stream. -/
def putBack (front : Bytes) (s : Stream) : Stream := { s with chunks := front :: s.chunks }

end Stream

/-- What reads of a decoded stream return. -/
inductive Feed
  | ended (fault : Option StreamFault) (urgent : Bool)
  | piece (bytes : Bytes) (joins : Bool) (next : Feed)
  deriving Repr, DecidableEq

/-- How a reading of a wanted number of bytes ended. -/
inductive Ending
  /-- All wanted bytes were there. -/
  | full
  /-- The stream ended before. -/
  | short
  | failed (fault : StreamFault)
  deriving DecidableEq, Repr

namespace Feed

/-- The bytes before the end. -/
def bytes : Feed → Bytes
  | .ended .. => []
  | .piece b _ next => b ++ next.bytes

/-- The fault at the end, if the end is one. -/
def fault? : Feed → Option StreamFault
  | .ended fault _ => fault
  | .piece _ _ next => next.fault?

/-- How many bytes are still to come. -/
def size : Feed → Nat
  | .ended .. => 0
  | .piece b _ next => b.length + next.size

/-- The feed of an undecoded stream: its chunks, each read by itself. -/
def ofStream (s : Stream) : Feed :=
  s.chunks.foldr (fun chunk next => .piece chunk false next)
    (.ended (if s.broken then some .broken else none) false)

/-- The feed when a part of a piece is left, which no read goes on from. -/
def remainder (rest : Bytes) (next : Feed) : Feed :=
  match next with
  | .ended fault true => .ended fault true
  | _ => .piece rest false next

/-- One read of at most `n` bytes: what it returns, and the feed after it. Nothing is returned at
the end. -/
def read (n : Nat) : Feed → Except StreamFault Bytes × Feed
  | .ended none urgent => (.ok [], .ended none urgent)
  | .ended (some fault) urgent => (.error fault, .ended (some fault) urgent)
  | .piece b joins next =>
    if b.isEmpty then read n next
    else if n < b.length then (.ok (b.take n), remainder (b.drop n) next)
    else if joins && b.length < n then
      match read (n - b.length) next with
      | (.ok more, after) => (.ok (b ++ more), after)
      | failed => failed
    else (.ok b, next)

/-- Reads on until `n` bytes are there, at most `unit` at a time; `collected` holds what was read
so far, latest first. -/
def readInto (unit : Nat) (n : Nat) (collected : List Bytes) (feed : Feed) :
    List Bytes × Ending × Feed :=
  if n = 0 then (collected, .full, feed)
  else
    match feed.read (min unit n) with
    | (.error fault, after) => (collected, .failed fault, after)
    | (.ok [], after) => (collected, .short, after)
    | (.ok (b :: bs), after) =>
      readInto unit (n - (b :: bs).length) ((b :: bs) :: collected) after
  termination_by n
  decreasing_by simp only [List.length_cons]; omega

/-- Reads until `n` bytes, the end or a fault, at most `unit` bytes at a time. -/
def readUpTo (unit n : Nat) (feed : Feed) : Bytes × Ending × Feed :=
  let (collected, ending, after) := feed.readInto unit n []
  (collected.reverse.flatten, ending, after)

/-! ### A read takes from the feed what it returns -/

/-- What is left of a chunk is no longer than it was. -/
theorem size_remainder_le (rest : Bytes) (next : Feed) :
    (remainder rest next).size ≤ rest.length + next.size := by
  unfold remainder
  split <;> simp [size]

/-- A read leaves at least the bytes it returned less than before. -/
theorem size_read (n : Nat) (feed : Feed) :
    (feed.read n).2.size + ((feed.read n).1.toOption.getD []).length ≤ feed.size := by
  -- On the pieces: a read takes a part of one, or all of it and more from the next.
  induction feed generalizing n with
  | ended fault urgent => cases fault <;> simp [read, size, Except.toOption]
  | piece b joins next ih =>
    simp only [read]
    split
    · have := ih n; simp only [size]; omega
    · split
      · have := size_remainder_le (b.drop n) next
        simp only [Except.toOption, Option.getD_some, List.length_take, size,
          List.length_drop] at *
        omega
      · split
        · have := ih (n - b.length)
          split
          · next more after heq =>
            rw [heq] at this
            simp only [Except.toOption, Option.getD_some, List.length_append, size] at *
            omega
          · simp only [size]; omega
        · simp [Except.toOption, size]; omega

/-- Reading on leaves at least the bytes it collected less than before. -/
theorem size_readInto (unit n : Nat) (collected : List Bytes) (feed : Feed) :
    (feed.readInto unit n collected).2.2.size
        + (feed.readInto unit n collected).1.flatten.length
      ≤ feed.size + collected.flatten.length := by
  induction n using Nat.strongRecOn generalizing collected feed with
  | ind n ih =>
    rw [readInto]
    split
    · simp
    · have hr := size_read (min unit n) feed
      split
      · next fault after heq =>
        rw [heq] at hr; simp only [Except.toOption, Option.getD_none, List.length_nil] at hr ⊢
        omega
      · next after heq =>
        rw [heq] at hr; simp only [Except.toOption, Option.getD_some, List.length_nil] at hr ⊢
        omega
      · next b bs after heq =>
        rw [heq] at hr
        have := ih (n - (b :: bs).length) (by simp only [List.length_cons]; omega)
          ((b :: bs) :: collected) after
        simp only [Except.toOption, Option.getD_some, List.flatten_cons, List.length_append] at *
        omega

/-- Reading leaves at least the bytes it returned less than before. -/
theorem size_readUpTo (unit n : Nat) (feed : Feed) :
    (feed.readUpTo unit n).2.2.size + (feed.readUpTo unit n).1.length ≤ feed.size := by
  have := size_readInto unit n [] feed
  simp only [readUpTo, List.length_flatten, List.map_reverse, List.sum_reverse] at *
  simpa using this

/-- A reading that got everything got the number of bytes that was asked for. -/
theorem length_readInto_of_full (unit n : Nat) (collected : List Bytes) (feed : Feed)
    (h : (feed.readInto unit n collected).2.1 = .full) :
    n ≤ (feed.readInto unit n collected).1.flatten.length := by
  -- What was read before only adds to the length.
  suffices ∀ c, (feed.readInto unit n c).2.1 = .full →
      (feed.readInto unit n c).1.flatten.length ≥ n + c.flatten.length by
    have := this collected h; omega
  clear h
  induction n using Nat.strongRecOn generalizing feed with
  | ind n ih =>
    intro c h
    rw [readInto] at h ⊢
    split
    · next hn => simp [hn]
    · next hn =>
      rw [if_neg hn] at h
      split
      · next fault after heq => rw [heq] at h; simp at h
      · next after heq => rw [heq] at h; simp at h
      · next b bs after heq =>
        rw [heq] at h
        have := ih (n - (b :: bs).length) (by simp only [List.length_cons]; omega) after
          ((b :: bs) :: c) h
        simp only [List.flatten_cons, List.length_append] at this
        omega

/-- A read that got all it asked for got as many bytes. -/
theorem length_readUpTo_of_full (unit n : Nat) (feed : Feed)
    (h : (feed.readUpTo unit n).2.1 = .full) : n ≤ (feed.readUpTo unit n).1.length := by
  have := length_readInto_of_full unit n [] feed h
  simp only [readUpTo, List.length_flatten, List.map_reverse, List.sum_reverse] at *
  exact this

end Feed
end ImageBuild
