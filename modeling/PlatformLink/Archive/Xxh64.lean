import PlatformLink.Archive.Fields

/-! # Checksums of 64 bits

Four lanes take eight octets each in turn, are merged, and take the octets that are left over. The
numbers in octets are read low octet first.
-/

namespace PlatformLink.Xxh64
set_option autoImplicit false

/-! ## Constants -/

def prime1 : UInt64 := 0x9e3779b185ebca87

def prime2 : UInt64 := 0xc2b2ae3d27d4eb4f

def prime3 : UInt64 := 0x165667b19e3779f9

def prime4 : UInt64 := 0x85ebca77c2b2ae63

def prime5 : UInt64 := 0x27d4eb2f165667c5

/-! ## Lanes -/

def turned (n : UInt64) (bits : UInt64) : UInt64 := (n <<< bits) ||| (n >>> (64 - bits))

def word (octets : Bytes) : UInt64 := UInt64.ofNat (Archive.ofLe octets)

def lane (v w : UInt64) : UInt64 := turned (v + w * prime2) 31 * prime1

/-- The lanes after one more word each, and the octets that follow. -/
def stripe : List UInt64 → Bytes → List UInt64 × Bytes
  | [], octets => ([], octets)
  | v :: lanes, octets =>
    let (later, rest) := stripe lanes (octets.drop 8)
    (lane v (word (octets.take 8)) :: later, rest)

/-- The lanes after `n` stripes, and the octets that follow. -/
def stripes : Nat → List UInt64 → Bytes → List UInt64 × Bytes
  | 0, lanes, octets => (lanes, octets)
  | n + 1, lanes, octets =>
    let (lanes, rest) := stripe lanes octets
    stripes n lanes rest

def start : List UInt64 := [prime1 + prime2, prime2, 0, 0 - prime1]

def merged (h v : UInt64) : UInt64 := (h ^^^ lane 0 v) * prime1 + prime4

def joined (lanes : List UInt64) : UInt64 :=
  lanes.foldl merged
    ((lanes.zip [1, 7, 12, 18]).foldl (fun total e => total + turned e.1 e.2) 0)

/-! ## The rest -/

def withOctets (h : UInt64) (octets : Bytes) : UInt64 :=
  octets.foldl (fun h b => turned (h ^^^ (b.toUInt64 * prime5)) 11 * prime1) h

/-- A checksum after four octets, if there are so many, and after the rest. -/
def withHalf (h : UInt64) (octets : Bytes) : UInt64 :=
  if octets.length < 4 then withOctets h octets
  else
    withOctets (turned (h ^^^ (word (octets.take 4) * prime1)) 23 * prime2 + prime3)
      (octets.drop 4)

/-- A checksum after `n` words of eight octets, and after the rest. -/
def withWords : Nat → UInt64 → Bytes → UInt64
  | 0, h, octets => withHalf h octets
  | n + 1, h, octets =>
    withWords n (turned (h ^^^ lane 0 (word (octets.take 8))) 27 * prime1 + prime4) (octets.drop 8)

def mixed (h : UInt64) : UInt64 :=
  let h := (h ^^^ (h >>> 33)) * prime2
  let h := (h ^^^ (h >>> 29)) * prime3
  h ^^^ (h >>> 32)

def checksum (octets : Bytes) : UInt64 :=
  let n := octets.length
  let (lanes, rest) := stripes (n / 32) start octets
  let h := if n < 32 then prime5 else joined lanes
  mixed (withWords (n % 32 / 8) (h + UInt64.ofNat n) rest)

end PlatformLink.Xxh64
