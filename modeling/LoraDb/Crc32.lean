import LoraDb.ByteCodec

/-!
# The Checksum

Frames and headers carry a checksum of their bytes. The function is not of this repository, and
the log asks nothing of it, so it is a parameter; `Crc32.ieee` is the one the log is run with.
-/

open ByteCodec

/-- A checksum of byte strings. -/
class Crc32 where
  checksum : Bytes → UInt32

namespace Crc32

/-- The polynomial, reflected. -/
def polynomial : UInt32 := 0xEDB88320

/-- Divide out one bit. -/
def bit (crc : UInt32) : UInt32 :=
  if crc &&& 1 = 1 then (crc >>> 1) ^^^ polynomial else crc >>> 1

/-- Divide out one byte. -/
def byte (crc : UInt32) (b : UInt8) : UInt32 :=
  bit (bit (bit (bit (bit (bit (bit (bit (crc ^^^ b.toUInt32))))))))

/-- The IEEE CRC-32: all-ones initial value, inverted result. -/
instance ieee : Crc32 where
  checksum bytes := ~~~(bytes.foldl byte 0xFFFFFFFF)

/-- The check value every implementation is tested against. -/
example : ieee.checksum (utf8 "123456789") = 0xCBF43926 := by decide +kernel

end Crc32
