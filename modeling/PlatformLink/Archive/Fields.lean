import PlatformLink.Bytes

/-! # Fields of archives

Archives are records of little-endian numbers, most of which start with a mark of four octets.
`le16`, `le32` and `ofLe` write and read a number. `Fields` are step parsers for records: octets,
numbers and marks from the front of what is left. An `Image` is a whole archive file, in which
records are looked for by position.
-/

namespace PlatformLink.Archive
set_option autoImplicit false

/-! ## Numbers -/

/-- The two octets of a 16-bit number, low one first. -/
def le16 (n : Nat) : Bytes := (count16 n).reverse

/-- The four octets of a 32-bit number, low one first. -/
def le32 (n : Nat) : Bytes := (count32 n).reverse

/-- The number of some octets, low one first. -/
def ofLe (octets : Bytes) : Nat := octets.foldr (fun b n => b.toNat + 256 * n) 0

/-! ## Marks -/

def localMark : Bytes := [0x50, 0x4b, 0x03, 0x04]

def headerMark : Bytes := [0x50, 0x4b, 0x01, 0x02]

def endMark : Bytes := [0x50, 0x4b, 0x05, 0x06]

/-- The mark of the record with wide numbers near the end. -/
def wideEndMark : Bytes := [0x50, 0x4b, 0x06, 0x06]

/-- The mark of the record that says where the one with wide numbers is. -/
def locatorMark : Bytes := [0x50, 0x4b, 0x06, 0x07]

/-! ## Reading in order -/

/-- A step that consumes octets from the front and returns a value, or fails. -/
abbrev Fields := StateT Bytes Option

namespace Fields

/-- The next `n` octets. -/
def octets (n : Nat) : Fields Bytes := splitExact? n

/-- The number in the next `n` octets. -/
def number (n : Nat) : Fields Nat := do
  let octets ← octets n
  return ofLe octets

/-- Passes over `n` octets. -/
def skip (n : Nat) : Fields Unit := do
  let _ ← octets n

/-- Passes over a mark, and fails at anything else. -/
def mark (expected : Bytes) : Fields Unit := do
  let found ← octets expected.length
  guard (found = expected)

/-- The value of some fields at the front of some octets. -/
def parse? {α : Type} (fields : Fields α) (octets : Bytes) : Option α :=
  (fields octets).map Prod.fst

end Fields

/-! ## Reading by position -/

abbrev Image := Array UInt8

/-- The `size` octets from `position` on, as far as there are any. -/
def Image.part (image : Image) (position size : Nat) : Bytes :=
  (image.extract position (min (position + size) image.size)).toList

/-- The octets from `position` on. -/
def Image.suffix (image : Image) (position : Nat) : Bytes :=
  (image.extract position image.size).toList

/-- Whether some octets stand at `position`. -/
def Image.hasAt (image : Image) (position : Nat) : Bytes → Bool
  | [] => true
  | b :: rest => image[position]? == some b && image.hasAt (position + 1) rest

end PlatformLink.Archive
