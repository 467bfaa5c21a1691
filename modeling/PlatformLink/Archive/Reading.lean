import PlatformLink.Archive.Bzip2
import PlatformLink.Archive.Directory
import PlatformLink.Archive.Inflate
import PlatformLink.Archive.Lzma
import PlatformLink.Archive.Writing
import PlatformLink.Archive.Xz
import PlatformLink.Archive.Zstandard

/-! # Reading archives

A file is an archive when it has a directory. `members?` gives its entries in the order of their
headers, each with what can be had of its data. Of several headers with one name the last counts,
in the place of the first.
-/

namespace PlatformLink.Archive
set_option autoImplicit false

/-- What can be had of the data of an entry. -/
inductive Data where
  /-- The entry cannot even be opened. -/
  | refused
  /-- The entry can be opened, but its data cannot be read. -/
  | damaged
  | intact (octets : Bytes)
  deriving DecidableEq, Repr

/-- An entry of an archive. -/
structure Member where
  name : String
  data : Data
  deriving DecidableEq, Repr

def Member.ofItem (item : Item) : Member := ⟨item.1, .intact item.2⟩

def Member.item? (m : Member) : Option Item :=
  match m.data with
  | .intact octets => some (m.name, octets)
  | _ => none

/-! ## Data -/

/-- Whether entries with data coded in this way can be opened: as they are, in one of six coded
forms, or in one more from which no data are read here. -/
def isKnownMethod (method : Nat) : Bool := [0, 8, 9, 12, 14, 93, 95, 98].contains method

/-- The data, `size` octets of them by their header, whose coded form is given. -/
def decoded? (method size : Nat) (coded : Bytes) : Option Bytes :=
  match method with
  | 0 => some coded
  | 8 => Inflate.inflate? coded
  | 9 => Inflate.inflateWide? coded
  | 12 => Bzip2.decode? coded
  | 14 => Lzma.decode? size coded
  | 93 => Zstandard.decode? coded
  | 95 => Xz.decode? coded
  | _ => none

/-- Reads the header before the data, up to the lengths of the name and of the extra field. -/
def localLengths : Fields (Nat × Nat) := do
  Fields.mark localMark
  Fields.skip 22
  let nameLength ← Fields.number 2
  let extraLength ← Fields.number 2
  return (nameLength, extraLength)

namespace Header

/-- The coded data of an entry, as far as the file goes. -/
def coded? (h : Header) (image : Image) : Option Bytes := do
  let (nameLength, extraLength) ← localLengths.parse? (image.part h.start 30)
  return image.part (h.start + 30 + nameLength + extraLength) h.size

def data (h : Header) (image : Image) : Data :=
  if h.locked || h.sealed || !isKnownMethod h.method then .refused
  else
    match h.coded? image with
    | none => .refused
    | some coded =>
      match decoded? h.method h.fullSize coded with
      | none => .damaged
      | some octets =>
        if (Crc32.checksum octets).toNat = h.checksum then .intact octets else .damaged

end Header

/-! ## Members -/

/-- Headers with one more, which takes the place of one of the same name. -/
def withHeader (headers : List Header) (h : Header) : List Header :=
  if headers.any (·.name == h.name) then headers.map fun g => if g.name == h.name then h else g
  else headers ++ [h]

/-- The entries of an archive, if the octets are one. -/
def members? (octets : Bytes) : Option (List Member) :=
  let image : Image := octets.toArray
  (headers? image).map fun headers =>
    (headers.foldl withHeader []).map fun h => ⟨h.name, h.data image⟩

end PlatformLink.Archive
