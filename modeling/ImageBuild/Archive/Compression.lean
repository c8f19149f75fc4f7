import ImageBuild.Gzip.Member
import ImageBuild.Tar.Member

/-!
# `ImageBuild.Archive.Compression`: telling archives apart

The first bytes of a stream say how it is compressed, if it is, and whether it is an archive at
all: either a compression is recognised, or the bytes hold a complete first tar header.
-/

set_option autoImplicit false

namespace ImageBuild.Archive

/-- The envelope around a tar stream. -/
inductive Compression
  | none
  | gzip
  | bzip2
  | xz
  | zstd
  deriving DecidableEq, Repr

/-- The name of the envelope. -/
def Compression.name : Compression → String
  | .none => "none"
  | .gzip => "gzip"
  | .bzip2 => "bzip2"
  | .xz => "xz"
  | .zstd => "zstd"

/-- How many bytes are looked at: one tar header. -/
def headerWindow : Nat := 512

/-- The bytes that each envelope starts with. -/
def magic : List (Bytes × Compression) :=
  [([0x42, 0x5A, 0x68], .bzip2),
   ([0x1F, 0x8B, 0x08], .gzip),
   ([0xFD, 0x37, 0x7A, 0x58, 0x5A, 0x00], .xz),
   ([0x28, 0xB5, 0x2F, 0xFD], .zstd)]

/-- The envelope of a stream that starts with these bytes. -/
def detectCompression (header : Bytes) : Compression :=
  ((magic.find? fun entry => entry.1.isPrefixOf header).map (·.2)).getD .none

/-- Whether bytes, read as a tar stream, have a first member. -/
def hasMember (bytes : Bytes) : Bool :=
  match (Tar.Cursor.start (.ofStream (.ofBytes bytes))).nextMember with
  | (.ok (some _), _) => true
  | _ => false

/-- Whether a stream that starts with these bytes is an archive. -/
def isArchive (header : Bytes) : Bool :=
  detectCompression header != .none || hasMember header

end ImageBuild.Archive
