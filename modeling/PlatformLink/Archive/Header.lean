import PlatformLink.Archive.Crc32
import PlatformLink.Archive.Fields
import PlatformLink.Text.CodePage437
import PlatformLink.Text.Utf8

/-! # Headers of archive entries

What the directory of an archive says of an entry: its name, how its data are coded, where they
are, and their checksum. Extra fields behind the fixed ones widen the numbers, replace the name or
the comment, and say that the data are sealed with a cipher; fields of an unknown kind are passed
over.
-/

namespace PlatformLink.Archive
set_option autoImplicit false

open Fields

/-- What the directory says of an entry. -/
structure Header where
  /-- Whether the data are locked by a password. -/
  locked : Bool
  /-- Whether the data are sealed with a cipher. -/
  sealed : Bool
  /-- The number of the way in which the data are coded. -/
  method : Nat
  checksum : Nat
  /-- The number of octets of the coded data. -/
  size : Nat
  /-- The number of octets of the data. -/
  fullSize : Nat
  nameOctets : Bytes
  name : String
  comment : String
  /-- Where the header before the data is. -/
  start : Nat
  deriving DecidableEq, Repr

namespace Header

/-! ## Extra fields -/

/-- What stands in a field of 32 bits for a number that is too large for it. -/
def tooLarge : Nat := 0xffffffff

/-- A number, from its extra field if it is there, and the length of that. -/
def widened (isThere : Bool) (n : Nat) : Fields (Nat × Nat) :=
  if isThere || n == tooLarge then do
    let n ← number 8
    return (n, 8)
  else return (n, 0)

/-- Reads a field of wide numbers. It holds all of them when it is long enough, and otherwise those
that are too large for 32 bits. -/
def widen (h : Header) (length : Nat) : Fields Header := do
  let all := 24 ≤ length
  let (fullSize, a) ← widened all h.fullSize
  let (size, b) ← widened all h.size
  let (start, c) ← widened all h.start
  guard (a + b + c ≤ length)
  skip (length - (a + b + c))
  return { h with fullSize, size, start }

/-- Passes over a field of three times of 64 bits. -/
def skipWideTimes (length : Nat) : Fields Unit := do
  guard (length = 32)
  skip 4
  let kind ← number 2
  let size ← number 2
  guard (kind = 1 ∧ size = 24)
  skip 24

/-- Passes over a field of times of 32 bits. Its flags say how many there are, in the header before
the data at least: in the directory one may stand for all. -/
def skipTimes (length : Nat) : Fields Unit := do
  let flags ← number 1
  guard (length = 5 ∨ length = 1 + 4 * (List.range 8).countP flags.testBit)
  skip (length - 1)

def readSeal (h : Header) (length : Nat) : Fields Header := do
  guard (length = 7)
  let version ← number 2
  let vendor ← number 2
  let strength ← number 1
  let method ← number 2
  guard (vendor = 0x4541 ∧ (version = 1 ∨ version = 2) ∧ 1 ≤ strength ∧ strength ≤ 3)
  return { h with sealed := true, method }

/-- Reads the octets of a text that replaces the one of the octets `old`, if it has their
checksum. -/
def replacing (old : Bytes) (length : Nat) : Fields Bytes := do
  skip 1
  let checksum ← number 4
  guard (5 ≤ length)
  let new ← octets (length - 5)
  guard ((Crc32.checksum old).toNat = checksum)
  return new

/-- The text of some octets of UTF-8. -/
def utf8 (octets : Bytes) : Fields String := fun rest =>
  (String.fromUTF8? (ByteArray.mk octets.toArray)).map fun text => (text, rest)

def extend (h : Header) : Fields Header := do
  let kind ← number 2
  let length ← number 2
  match kind with
  | 0x0001 => h.widen length
  | 0x000a =>
    skipWideTimes length
    return h
  | 0x5455 =>
    skipTimes length
    return h
  | 0x6375 =>
    let comment ← replacing h.comment.toUTF8.toList length >>= utf8
    return { h with comment }
  | 0x7075 =>
    let nameOctets ← replacing h.nameOctets length
    let name ← utf8 nameOctets
    return { h with nameOctets, name }
  | 0x9901 => h.readSeal length
  | _ =>
    skip length
    return h

/-- Reads extra fields, at most `n`, as long as there are two octets. -/
def extendAll? (h : Header) : Nat → Bytes → Option Header
  | 0, _ => some h
  | n + 1, octets =>
    if octets.length < 2 then some h
    else
      match h.extend octets with
      | some (h, rest) => h.extendAll? n rest
      | none => none

/-! ## Headers -/

/-- The method of data that are sealed, when no extra field says how. -/
def sealedMethod : Nat := 99

/-- One more than the largest number of 64 bits. -/
def wideLimit : Nat := 0x10000000000000000

/-- The text of some octets, which flag 11 says to be UTF-8. -/
def text (flags : Nat) (octets : Bytes) : String :=
  String.ofList (if flags.testBit 11 then Utf8.decodeLossy octets else CodePage437.decode octets)

/-- Reads a header without its extra fields, and the octets of those. -/
def readFixed : Fields (Header × Bytes) := do
  mark headerMark
  skip 4
  let flags ← number 2
  let method ← number 2
  skip 4
  let checksum ← number 4
  let size ← number 4
  let fullSize ← number 4
  let nameLength ← number 2
  let extraLength ← number 2
  let commentLength ← number 2
  skip 8
  let start ← number 4
  let nameOctets ← octets nameLength
  let extra ← octets extraLength
  let comment ← octets commentLength
  let h : Header := {
    locked := flags.testBit 0, sealed := false, method, checksum, size, fullSize, nameOctets
    name := text flags nameOctets, comment := text flags comment, start }
  return (h, extra)

/-- Reads a header of an archive that lies `shift` octets behind the start of its file. -/
def read (shift : Nat) : Fields Header := do
  let (h, extra) ← readFixed
  match h.extendAll? extra.length extra with
  | none => failure
  | some h =>
    guard (h.method = sealedMethod → h.sealed)
    guard (h.start + shift < wideLimit)
    return { h with start := h.start + shift }

/-- Reads `n` headers, after those already `done` in reverse. -/
def readAllAfter (shift : Nat) : Nat → List Header → Fields (List Header)
  | 0, done => return done.reverse
  | n + 1, done => do
    let h ← read shift
    readAllAfter shift n (h :: done)

/-- Reads `n` headers. -/
def readAll (shift n : Nat) : Fields (List Header) := readAllAfter shift n []

end Header

end PlatformLink.Archive
