import PlatformLink.Bytes

/-! # Cyclic checksums of 64 bits

The 64-bit cyclic redundancy check with the reversed polynomial `0xc96c5795d7870f42`.
-/

namespace PlatformLink.Crc64
set_option autoImplicit false

/-- The register after one more zero bit. -/
def shift (r : UInt64) : UInt64 :=
  if r &&& 1 = 1 then (r >>> 1) ^^^ 0xc96c5795d7870f42 else r >>> 1

/-- The register after the eight bits of an octet. -/
def step (r : UInt64) (b : UInt8) : UInt64 :=
  let r := r ^^^ b.toUInt64
  shift (shift (shift (shift (shift (shift (shift (shift r)))))))

def checksum (octets : Bytes) : UInt64 :=
  octets.foldl step 0xffffffffffffffff ^^^ 0xffffffffffffffff

end PlatformLink.Crc64
