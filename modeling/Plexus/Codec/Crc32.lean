import Plexus.Codec.Word

/-!
# CRC-32

The cyclic redundancy check of a sequence of bytes with the reflected polynomial 0xedb88320: the
remainder starts as all ones, takes in each byte from its lowest bit, and is complemented at the
end.
-/

namespace Plexus.Crc32

/-- Divide the remainder by the polynomial for a number of bits. -/
def shift : Nat → UInt32 → UInt32
  | 0, r => r
  | n + 1, r => shift n (if r &&& 1 = 1 then (r >>> 1) ^^^ 0xedb88320 else r >>> 1)

/-- Take in a byte. -/
def step (r : UInt32) (b : UInt8) : UInt32 := shift 8 (r ^^^ b.toUInt32)

/-- The check of some bytes. -/
def checksum (bytes : Bytes) : UInt32 := ~~~(bytes.foldl step 0xffffffff)

end Plexus.Crc32
