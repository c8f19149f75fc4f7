import ImageBuild.Stream

/-!
# `ImageBuild.Tar.Fault`: what can be wrong with a tar stream

Every fault that reading the members of a tar stream can meet, each with its text.
-/

set_option autoImplicit false

namespace ImageBuild.Tar

/-- A number that a header holds, for messages. The texts name the member or its owner. -/
inductive NumberField
  | checksum (member : String)
  | size (member : String)
  | sparseOffset
  | sparseLength
  | realSize (owner : String)
  deriving DecidableEq, Repr

/-- The field in words. -/
def NumberField.label : NumberField → String
  | .checksum member => s!"cksum for {member}"
  | .size member => s!"size for {member}"
  | .sparseOffset => "offset from sparse header"
  | .sparseLength => "length from sparse header"
  | .realSize owner => s!"real_size for {owner}"

/-- Why no further member can be read. -/
inductive Fault
  | stream (f : StreamFault)
  /-- The stream ends inside a header block. -/
  | partialBlock
  | notANumber (text : String) (field : NumberField)
  | notText (shown : String) (field : NumberField)
  | checksumMismatch
  | sizeOverflow
  | repeatedLongName
  | repeatedPax
  | missingMember
  | endInSkip
  | sparseHeader
  | sparseAlignment
  | sparseOrder
  | sparseOverflow
  | sparseExcess
  | sparseExtension
  | sparseRealSize
  | sparseEntrySize
  deriving DecidableEq, Repr

/-- The fault in words. -/
def Fault.message : Fault → String
  | .stream f => f.message
  | .partialBlock => "failed to read entire block"
  | .notANumber text field =>
    s!"numeric field was not a number: {text} when getting {field.label}"
  | .notText shown field =>
    s!"numeric field did not have utf-8 text: {shown} when getting {field.label}"
  | .checksumMismatch => "archive header checksum mismatch"
  | .sizeOverflow => "size overflow"
  | .repeatedLongName => "two long name entries describing the same member"
  | .repeatedPax => "two pax extensions entries describing the same member"
  | .missingMember => "members found describing a future member but no future member found"
  | .endInSkip => "unexpected EOF during skip"
  | .sparseHeader => "sparse entry type listed but not GNU header"
  | .sparseAlignment => "previous block in sparse file was not aligned to 512-byte boundary"
  | .sparseOrder => "out of order or overlapping sparse blocks"
  | .sparseOverflow => "more bytes listed in sparse file than u64 can hold"
  | .sparseExcess => "sparse file consumed more data than the header listed"
  | .sparseExtension => "failed to read extension"
  | .sparseRealSize => "mismatch in sparse file chunks and size in header"
  | .sparseEntrySize => "mismatch in sparse file chunks and entry size in header"

end ImageBuild.Tar
