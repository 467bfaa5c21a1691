import PlatformLink.Bytes

/-! # Checksums of archive entries

The 32-bit cyclic redundancy check with the reversed polynomial `0xedb88320`.
-/

namespace PlatformLink.Crc32
set_option autoImplicit false

/-- The register after one more zero bit. -/
def shift (r : UInt32) : UInt32 := if r &&& 1 = 1 then (r >>> 1) ^^^ 0xedb88320 else r >>> 1

/-- The register after the eight bits of an octet. -/
def step (r : UInt32) (b : UInt8) : UInt32 :=
  let r := r ^^^ b.toUInt32
  shift (shift (shift (shift (shift (shift (shift (shift r)))))))

def checksum (octets : Bytes) : UInt32 := octets.foldl step 0xffffffff ^^^ 0xffffffff

end PlatformLink.Crc32
