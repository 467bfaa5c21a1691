import PlatformLink.Archive.Crc32
import PlatformLink.Archive.Crc64
import PlatformLink.Archive.Lzma
import PlatformLink.Archive.Sha256

/-! # Streams of blocks

A form of data in blocks of chunks, each with a checksum of a kind that the whole names, and an
index of the blocks at the end. All parts take a multiple of four octets.
-/

namespace PlatformLink.Xz
set_option autoImplicit false

open Decoding

/-! ## Checksums -/

/-- A kind of checksum. -/
inductive Check where
  | none
  | crc32
  | crc64
  | sha256
  deriving DecidableEq, Repr

namespace Check

def ofNumber? : Nat → Option Check
  | 0 => some .none
  | 1 => some .crc32
  | 4 => some .crc64
  | 10 => some .sha256
  | _ => Option.none

/-- The checksum of some octets, as it is written. -/
def octets : Check → Bytes → Bytes
  | .none, _ => []
  | .crc32, content => (be32 (Crc32.checksum content)).reverse
  | .crc64, content => (be64 (Crc64.checksum content)).reverse
  | .sha256, content => Sha256.digest content

end Check

/-- Reads `n` octets, and the checksum behind them. -/
def sealedOctets (n : Nat) : Step Bytes := do
  let content ← octets n
  check ((← octets 4) == Check.crc32.octets content)
  return content

/-! ## Numbers -/

/-- The rest of a number of up to `n` groups of seven bits, low ones first. -/
def groups : Nat → Bool → Step Nat
  | 0, _ => malformed
  | n + 1, isFirst => do
    let b := (← octet).toNat
    if b < 128 then
      check (isFirst || b != 0)
      return b
    else
      let rest ← groups n false
      return b - 128 + 128 * rest

/-- Reads a number of up to 63 bits. -/
def wideNumber : Step Nat := groups 9 true

def wideNumber? (isThere : Bool) : Step (Option Nat) :=
  if isThere then some <$> wideNumber else return none

/-- Passes over zeros up to a multiple of four octets, counted from `start` on. -/
def pad (start : Nat) : Step Unit := do
  let n := (← offset) - start
  let zeros ← octets ((4 - n % 4) % 4)
  check (zeros.all (· == 0))

/-! ## Blocks -/

/-- The header of a block. -/
structure Header where
  /-- The number of octets of the chunks, if it is given. -/
  size : Option Nat
  /-- The number of octets that the block stands for, if it is given. -/
  fullSize : Option Nat
  /-- The distances of the octets that are added to each octet afterwards. -/
  differences : List Nat
  /-- How far references reach. -/
  reach : Nat
  deriving DecidableEq, Repr

/-- The reach of references, from how it is written. -/
def reachOf (b : Nat) : Nat :=
  if b = 40 then 0xffffffff else (2 + b % 2) * Nat.pow 2 (b / 2 + 11)

/-- Reads the number of a filter, and its one octet. -/
def filter : Step (Nat × Nat) := do
  let kind ← wideNumber
  check ((← wideNumber) == 1)
  let b := (← octet).toNat
  return (kind, b)

/-- Reads `n` filters of differences, and the filter of chunks. -/
def filters : Nat → Step (List Nat × Nat)
  | 0 => do
    let (kind, b) ← filter
    check (kind == 0x21 && b ≤ 40)
    return ([], reachOf b)
  | n + 1 => do
    let (kind, b) ← filter
    check (kind == 3)
    let (rest, reach) ← filters n
    return ((b + 1) :: rest, reach)

def headerContent : Step Header := do
  let flags := (← octet).toNat
  check (flags / 4 % 16 == 0)
  let size ← wideNumber? (flags.testBit 6)
  let fullSize ← wideNumber? (flags.testBit 7)
  let (differences, reach) ← filters (flags % 4)
  let n := (← get).input.size - (← offset)
  check ((← octets n).all (· == 0))
  return { size, fullSize, differences, reach }

/-- Octets after those already `done`, each increased by the one `distance` before it. -/
def summedAfter (distance : Nat) (done : Array UInt8) : Bytes → Array UInt8
  | [] => done
  | b :: rest =>
    let earlier := if distance ≤ done.size then done[done.size - distance]?.getD 0 else 0
    summedAfter distance (done.push (b + earlier)) rest

/-- Octets, each increased by the one `distance` before it. -/
def summed (distance : Nat) (octets : Bytes) : Bytes := (summedAfter distance #[] octets).toList

def Header.content (h : Header) (octets : Bytes) : Bytes :=
  h.differences.foldr summed octets

/-- The sizes that the index says of a block: that of the block, and that of what it stands for. -/
abbrev Sizes := Nat × Nat

/-- What a step writes, which is not written yet. -/
def held (decoder : Step Unit) : Step Bytes := fun ⟨input, position, output⟩ =>
  match decoder ⟨input, position, #[]⟩ with
  | (.ok (), s) => (.ok s.output.toList, { s with output })
  | (.error e, s) => (.error e, { s with output })

/-- Writes a block whose header takes `n` octets without the first one and the checksum. -/
def block (c : Check) (fuel n : Nat) : Step Sizes := do
  let start := (← offset) - 1
  modify fun s => { s with position := 8 * start }
  let header ← sealedOctets (n + 1)
  let h ← within header.toArray 8 headerContent
  let chunksStart ← offset
  let octets ← held (Lzma.chunks h.reach fuel)
  let size := (← offset) - chunksStart
  let content := h.content octets
  check ((h.size.getD size) == size && (h.fullSize.getD content.length) == content.length)
  pad chunksStart
  let expected := c.octets content
  check ((← Decoding.octets expected.length) == expected)
  emitAll content
  return (chunksStart - start + size + expected.length, content.length)

/-- Writes blocks up to the index, after some with the sizes `done` in reverse. -/
def blocksAfter (c : Check) (fuel : Nat) : Nat → List Sizes → Step (List Sizes)
  | 0, _ => malformed
  | n + 1, done => do
    let b := (← octet).toNat
    if b = 0 then return done.reverse
    else
      let sizes ← block c fuel (4 * b - 1)
      blocksAfter c fuel n (sizes :: done)

/-! ## Streams -/

/-- Reads the sizes of blocks, which have to be those given. -/
def records : List Sizes → Step Unit
  | [] => return ()
  | sizes :: rest => do
    check ((← wideNumber) == sizes.1)
    check ((← wideNumber) == sizes.2)
    records rest

/-- Reads the index after its first octet: the number of its octets. -/
def index (blocks : List Sizes) : Step Nat := do
  let start := (← offset) - 1
  check ((← wideNumber) == blocks.length)
  records blocks
  pad start
  let n := (← offset) - start
  modify fun s => { s with position := 8 * start }
  let _ ← sealedOctets n
  return n + 4

/-- Writes a stream of at most `n` octets. -/
def decoder (n : Nat) : Step Unit := do
  check ((← octets 6) == [0xfd, 0x37, 0x7a, 0x58, 0x5a, 0x00])
  let flags ← sealedOctets 2
  check (flags.head? == some 0)
  let c ← ofOption (flags.getLast?.bind fun b => Check.ofNumber? b.toNat)
  let blocks ← blocksAfter c n n []
  let size ← index blocks
  let expected ← octets 4
  let footer := be32 (UInt32.ofNat (size / 4 - 1)) |>.reverse
  check ((← octets 6) == footer ++ flags)
  check (expected == Check.crc32.octets (footer ++ flags))
  check ((← octets 2) == [0x59, 0x5a])

/-- The octets that a stream stands for. What follows it does not matter. -/
def decode? (octets : Bytes) : Option Bytes := whole? (decoder octets.length) octets

end PlatformLink.Xz
