import ImageBuild.Text.Utf8

/-!
# `ImageBuild.Gzip.Checksum`: the CRC-32 of gzip members

The cyclic redundancy check with the reflected polynomial `0xEDB88320`, byte by byte over a table.
-/

set_option autoImplicit false

namespace ImageBuild.Gzip

/-- The check register after `steps` zero bits. -/
def crcShift : (steps : Nat) → UInt32 → UInt32
  | 0, c => c
  | steps + 1, c => crcShift steps (if c &&& 1 == 1 then (c >>> 1) ^^^ 0xEDB88320 else c >>> 1)

/-- The check register after each byte. -/
def crcTable : Array UInt32 := (Array.range 256).map fun n => crcShift 8 (UInt32.ofNat n)

/-- The check register after one more byte. -/
def crcStep (c : UInt32) (b : UInt8) : UInt32 :=
  (crcTable[((c ^^^ b.toUInt32) &&& 0xFF).toNat]?).getD 0 ^^^ (c >>> 8)

/-- The checksum of bytes. -/
def crc32 (bytes : ByteArray) : UInt32 := bytes.foldl crcStep 0xFFFFFFFF ^^^ 0xFFFFFFFF

end ImageBuild.Gzip
