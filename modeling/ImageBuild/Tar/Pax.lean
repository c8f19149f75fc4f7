import ImageBuild.Text.Number
import ImageBuild.Text.Utf8

/-!
# `ImageBuild.Tar.Pax`: pax records

The data of a pax extension member is lines `<length> <key>=<value>`, where the length counts the
whole line with its newline. Two keys matter here: `path` replaces the name of the member that
follows, `size` its size.
-/

set_option autoImplicit false

namespace ImageBuild.Tar

/-- One pax record. -/
structure PaxRecord where
  key : Bytes
  value : Bytes
  deriving DecidableEq, Repr

namespace PaxRecord

/-- The word in bytes, if they are one. -/
def readWord (bytes : Bytes) : Option Nat :=
  (Utf8.decode? bytes).bind fun text => Text.readWord 10 text.toList

/-- The record on a line, if it is well formed. -/
def ofLine? (line : Bytes) : Option PaxRecord :=
  let length := line.takeWhile (· != 0x20)
  let record := (line.dropWhile (· != 0x20)).drop 1
  if !line.contains 0x20 || readWord length != some (line.length + 1) then none
  else if !record.contains 0x3D then none
  else some ⟨record.takeWhile (· != 0x3D), (record.dropWhile (· != 0x3D)).drop 1⟩

/-- The lines of pax data, up to the first empty one. -/
def lines (data : Bytes) : List Bytes := (data.splitOn 0x0A).takeWhile fun l => !l.isEmpty

/-- The first `path`; malformed records are passed over. -/
def path? (data : Bytes) : Option Bytes :=
  (((lines data).filterMap ofLine?).find? fun r => r.key == Utf8.encode "path").map (·.value)

/-- The size that the first `size` record gives, if no malformed record comes before it. -/
def sizeIn : List Bytes → Option Nat
  | [] => none
  | line :: rest =>
    match ofLine? line with
    | none => none
    | some r => if r.key = Utf8.encode "size" then readWord r.value else sizeIn rest

/-- The size that replaces the one in the header. -/
def size? (data : Bytes) : Option Nat := sizeIn (lines data)

end PaxRecord
end ImageBuild.Tar
