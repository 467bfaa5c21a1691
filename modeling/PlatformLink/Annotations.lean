import PlatformLink.ConstantPool

/-! # Annotations

The payload of an annotation attribute: a count, then for each entry the index of its type
descriptor and its element pairs. The pairs are kept as octets, but every entry is walked through
by the grammar of element values, so that its end is known and nothing follows the last one.
-/

namespace PlatformLink
set_option autoImplicit false

/-- An entry of an annotation list: its type, and the octets of its element pairs with their
count. -/
structure AnnotationEntry where
  descriptor : String
  elements : Bytes
  deriving DecidableEq, Repr

def AnnotationEntry.marker (descriptor : String) : AnnotationEntry := ⟨descriptor, [0, 0]⟩

namespace Annotations

/-! ## Walking through element values -/

/-- The tags of element values that are one constant index. -/
def isConstantTag (tag : UInt8) : Bool :=
  tag ∈ [0x42, 0x43, 0x44, 0x46, 0x49, 0x4a, 0x53, 0x5a, 0x73, 0x63]

/-- Skips element pairs, a name index and a value each, with a reader for the values. -/
def skipPairs (value : Reader Unit) : Reader Unit := do
  let n ← Reader.u16
  Reader.skipMany (do let _ ← Reader.u16; value) n.toNat

/-- A reader that fails at the offset of the octet before. -/
def badTag : Reader Unit := fun c => .error (.truncated (c.offset - 1))

/-- Skips one element value that nests at most `depth` deep: a constant, an enumeration constant,
an entry of its own, or an array. -/
def skipValue : Nat → Reader Unit
  | 0 => Reader.truncatedHere
  | depth + 1 => do
    let tag ← Reader.u8
    if isConstantTag tag then do
      let _ ← Reader.u16
    else if tag = 0x65 then do
      let _ ← Reader.u16
      let _ ← Reader.u16
    else if tag = 0x40 then do
      let _ ← Reader.u16
      skipPairs (skipValue depth)
    else if tag = 0x5b then do
      let n ← Reader.u16
      Reader.skipMany (skipValue depth) n.toNat
    else badTag

/-! ## The payload -/

def readText (pool : ConstantPool) : Reader String := do
  let index ← Reader.u16
  pool.text index

/-- One entry, with values that nest at most `depth` deep. -/
def readEntry (pool : ConstantPool) (depth : Nat) : Reader AnnotationEntry := do
  let descriptor ← readText pool
  let elements ← Reader.consumed (skipPairs (skipValue depth))
  return ⟨descriptor, elements⟩

/-- The entries of a payload. Every level of nesting takes an octet, so the length of the payload
bounds the depth. -/
def decode (pool : ConstantPool) (payload : Bytes) : Except ClassError (List AnnotationEntry) :=
  Reader.parse (do
    let entries ← Reader.counted16 (readEntry pool (payload.length + 1))
    Reader.atEnd
    return entries) payload

def encodeEntry (entry : AnnotationEntry) : Interning Bytes := do
  let index ← Interning.text entry.descriptor
  return be16 index ++ entry.elements

def encode (entries : List AnnotationEntry) : Interning Bytes := do
  let parts ← entries.mapM encodeEntry
  return count16 entries.length ++ parts.flatten

end Annotations

end PlatformLink
