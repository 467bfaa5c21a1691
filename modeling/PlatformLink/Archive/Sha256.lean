import PlatformLink.Bytes

/-! # Digests of 256 bits

Octets are padded to blocks of 64, and each block changes eight words of 32 bits in 64 rounds.
Numbers in octets are big-endian.
-/

namespace PlatformLink.Sha256
set_option autoImplicit false

/-- The words that a block changes. -/
structure Words where
  a : UInt32
  b : UInt32
  c : UInt32
  d : UInt32
  e : UInt32
  f : UInt32
  g : UInt32
  h : UInt32

/-- The words before the first block: the first bits of the fractions of square roots of primes. -/
def Words.initial : Words :=
  ⟨0x6a09e667, 0xbb67ae85, 0x3c6ef372, 0xa54ff53a, 0x510e527f, 0x9b05688c, 0x1f83d9ab,
    0x5be0cd19⟩

/-- The sums of the words at the same places. -/
def Words.add (v w : Words) : Words :=
  ⟨v.a + w.a, v.b + w.b, v.c + w.c, v.d + w.d, v.e + w.e, v.f + w.f, v.g + w.g, v.h + w.h⟩

def Words.octets (w : Words) : Bytes :=
  [w.a, w.b, w.c, w.d, w.e, w.f, w.g, w.h].flatMap be32

/-- The constants of the rounds: the first bits of the fractions of cube roots of primes. -/
def constants : List UInt32 :=
  [0x428a2f98, 0x71374491, 0xb5c0fbcf, 0xe9b5dba5, 0x3956c25b, 0x59f111f1, 0x923f82a4,
    0xab1c5ed5, 0xd807aa98, 0x12835b01, 0x243185be, 0x550c7dc3, 0x72be5d74, 0x80deb1fe,
    0x9bdc06a7, 0xc19bf174, 0xe49b69c1, 0xefbe4786, 0x0fc19dc6, 0x240ca1cc, 0x2de92c6f,
    0x4a7484aa, 0x5cb0a9dc, 0x76f988da, 0x983e5152, 0xa831c66d, 0xb00327c8, 0xbf597fc7,
    0xc6e00bf3, 0xd5a79147, 0x06ca6351, 0x14292967, 0x27b70a85, 0x2e1b2138, 0x4d2c6dfc,
    0x53380d13, 0x650a7354, 0x766a0abb, 0x81c2c92e, 0x92722c85, 0xa2bfe8a1, 0xa81a664b,
    0xc24b8b70, 0xc76c51a3, 0xd192e819, 0xd6990624, 0xf40e3585, 0x106aa070, 0x19a4c116,
    0x1e376c08, 0x2748774c, 0x34b0bcb5, 0x391c0cb3, 0x4ed8aa4a, 0x5b9cca4f, 0x682e6ff3,
    0x748f82ee, 0x78a5636f, 0x84c87814, 0x8cc70208, 0x90befffa, 0xa4506ceb, 0xbef9a3f7,
    0xc67178f2]

def turned (n bits : UInt32) : UInt32 := (n >>> bits) ||| (n <<< (32 - bits))

def round (w : Words) (constant word : UInt32) : Words :=
  let high := turned w.e 6 ^^^ turned w.e 11 ^^^ turned w.e 25
  let choice := (w.e &&& w.f) ^^^ ((w.e ^^^ 0xffffffff) &&& w.g)
  let t := w.h + high + choice + constant + word
  let low := turned w.a 2 ^^^ turned w.a 13 ^^^ turned w.a 22
  let majority := (w.a &&& w.b) ^^^ (w.a &&& w.c) ^^^ (w.b &&& w.c)
  ⟨t + low + majority, w.a, w.b, w.c, w.d + t, w.e, w.f, w.g⟩

/-- The words of a block, big-endian. -/
def words : Bytes → List UInt32
  | a :: b :: c :: d :: rest => ofBe32 a b c d :: words rest
  | _ => []

/-- The word of a round, from the words of earlier ones with the last one in front. -/
def nextWord (earlier : List UInt32) : UInt32 :=
  let ago (n : Nat) := earlier[n - 1]?.getD 0
  let x := ago 15
  let y := ago 2
  ago 16 + (turned x 7 ^^^ turned x 18 ^^^ (x >>> 3)) + ago 7 +
    (turned y 17 ^^^ turned y 19 ^^^ (y >>> 10))

/-- The words of `n` more rounds after earlier ones, all with the last one in front. -/
def schedule : Nat → List UInt32 → List UInt32
  | 0, earlier => earlier
  | n + 1, earlier => schedule n (nextWord earlier :: earlier)

def block (w : Words) (octets : Bytes) : Words :=
  let rounds := (schedule 48 (words octets).reverse).reverse
  w.add ((constants.zip rounds).foldl (fun v e => round v e.1 e.2) w)

/-- The words after `n` blocks. -/
def blocks : Nat → Words → Bytes → Words
  | 0, w, _ => w
  | n + 1, w, octets => blocks n (block w (octets.take 64)) (octets.drop 64)

/-- Octets with what makes them whole blocks: a bit, zeros, and the number of bits. -/
def padded (octets : Bytes) : Bytes :=
  octets ++ 0x80 :: List.replicate ((119 - octets.length % 64) % 64) 0 ++
    be64 (UInt64.ofNat (8 * octets.length))

def digest (octets : Bytes) : Bytes :=
  let padded := padded octets
  (blocks (padded.length / 64) .initial padded).octets

end PlatformLink.Sha256
