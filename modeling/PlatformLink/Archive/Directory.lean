import PlatformLink.Archive.Header

/-! # Directories of archives

The directory of an archive is found from its end. The end record says how many headers there are
and where they start, or, when a number is too large for it, the record with wide numbers does
that. Anything may stand in front of the archive: the offsets in it count from its own start, and
where that is shows in the place of the first header, or of the wide record. Anything may follow
too, and may itself look like an end record: `headers?` takes the last place where the end record
leads to a directory.
-/

namespace PlatformLink.Archive
set_option autoImplicit false

open Fields

/-- Where a directory is. -/
structure Directory where
  /-- How far the archive lies behind the start of its file. -/
  shift : Nat
  start : Nat
  /-- The number of headers. -/
  count : Nat
  deriving DecidableEq, Repr

/-! ## Records -/

/-- The record at the end of an archive. -/
structure EndRecord where
  disk : Nat
  directoryDisk : Nat
  /-- The number of headers on this disk. -/
  countHere : Nat
  count : Nat
  offset : Nat
  deriving DecidableEq, Repr

/-- Reads the end record, with the comment that belongs to it. -/
def EndRecord.read : Fields EndRecord := do
  mark endMark
  let disk ← number 2
  let directoryDisk ← number 2
  let countHere ← number 2
  let count ← number 2
  skip 4
  let offset ← number 4
  let commentLength ← number 2
  skip commentLength
  return { disk, directoryDisk, countHere, count, offset }

/-- Whether a record with wide numbers may stand in for this one. -/
def EndRecord.mayBeWide (r : EndRecord) : Bool := r.count == 0xffff || r.offset == 0xffffffff

/-- The record that says where the one with wide numbers is. -/
structure Locator where
  directoryDisk : Nat
  offset : Nat
  disks : Nat
  deriving DecidableEq, Repr

def Locator.length : Nat := 20

def Locator.read : Fields Locator := do
  mark locatorMark
  let directoryDisk ← number 4
  let offset ← number 8
  let disks ← number 4
  return { directoryDisk, offset, disks }

/-- The end record with wide numbers. -/
structure WideEndRecord where
  /-- The length of what follows this field. -/
  length : Nat
  disk : Nat
  directoryDisk : Nat
  countHere : Nat
  count : Nat
  offset : Nat
  deriving DecidableEq, Repr

/-- Reads the fixed part of the end record with wide numbers. -/
def WideEndRecord.read : Fields WideEndRecord := do
  mark wideEndMark
  let length ← number 8
  skip 4
  let disk ← number 4
  let directoryDisk ← number 4
  let countHere ← number 8
  let count ← number 8
  skip 8
  let offset ← number 8
  return { length, disk, directoryDisk, countHere, count, offset }

/-! ## Finding the directory -/

/-- The positions from `low` to before `high`. -/
def positions (low high : Nat) : List Nat := List.range' low (high - low)

/-- The directory of an archive with its end record at `position`. Its first header is the first
one from the given offset on. -/
def EndRecord.directory? (r : EndRecord) (image : Image) (position : Nat) : Option Directory := do
  let shift ←
    if r.count = 0 then some (position - r.offset)
    else
      let first ← (positions r.offset position).find? (image.hasAt · headerMark)
      some (first - r.offset)
  guard (r.disk = r.directoryDisk)
  return ⟨shift, r.offset + shift, r.countHere⟩

def headerLength : Nat := 46

/-- The record with wide numbers at `position`, if it reaches up to the locator at `last` and has
room for its headers in front. -/
def Locator.recordAt? (l : Locator) (image : Image) (last position : Nat) : Option WideEndRecord := do
  let r ← WideEndRecord.read.parse? (image.part position 56)
  guard (44 ≤ r.length ∧ position + r.length + 12 = last)
  guard (r.directoryDisk = l.directoryDisk)
  guard (r.count * headerLength + r.offset ≤ position)
  return r

/-- The directory of an archive with the locator `l` at `last`. -/
def Locator.directory? (l : Locator) (image : Image) (last : Nat) : Option Directory := do
  guard (l.offset < last ∧ l.disks ≤ 1)
  let (position, r) ← (positions l.offset last).findSome? fun position =>
    (l.recordAt? image last position).map fun r => (position, r)
  guard (r.countHere ≤ r.count ∧ r.disk = r.directoryDisk)
  let shift := position - l.offset
  return ⟨shift, r.offset + shift, r.count⟩

/-- The locator in front of the end record at `position`. -/
def Locator.before? (image : Image) (position : Nat) : Option Locator := do
  guard (length ≤ position)
  Locator.read.parse? (image.part (position - length) length)

/-- The directory that the end record at `position` leads to. -/
def Directory.at? (image : Image) (position : Nat) : Option Directory := do
  let r ← EndRecord.read.parse? (image.suffix position)
  match if r.mayBeWide then Locator.before? image position else none with
  | some l => l.directory? image (position - Locator.length)
  | none => r.directory? image position

def Directory.headers? (d : Directory) (image : Image) : Option (List Header) :=
  (Header.readAll d.shift d.count).parse? (image.suffix d.start)

/-- The headers that the end record at `position` leads to. -/
def headersAt? (image : Image) (position : Nat) : Option (List Header) := do
  guard (image.hasAt position endMark)
  let d ← Directory.at? image position
  d.headers? image

def headers? (image : Image) : Option (List Header) :=
  (positions 0 image.size).reverse.findSome? (headersAt? image)

end PlatformLink.Archive
