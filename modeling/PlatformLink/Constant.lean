import PlatformLink.Reader

/-! # Constants

The kinds of constant-pool entries, their octets (`Constant.encode`), and the reader that takes
one entry from the front (`Constant.read`). The unusable slot that follows a `long` or `double`
is an entry of its own and has no octets.
-/

namespace PlatformLink
set_option autoImplicit false

/-- An entry of a constant pool. -/
inductive Constant where
  /-- The second slot of a `long` or `double`. -/
  | unusable
  | utf8 (text : Bytes)
  | integer (bits : UInt32)
  | float (bits : UInt32)
  | long (bits : UInt64)
  | double (bits : UInt64)
  | class (name : UInt16)
  | string (text : UInt16)
  | fieldRef (owner nameAndType : UInt16)
  | methodRef (owner nameAndType : UInt16)
  | interfaceMethodRef (owner nameAndType : UInt16)
  | nameAndType (name descriptor : UInt16)
  | methodHandle (kind : UInt8) (reference : UInt16)
  | methodType (descriptor : UInt16)
  | dynamic (bootstrap nameAndType : UInt16)
  | invokeDynamic (bootstrap nameAndType : UInt16)
  | module (name : UInt16)
  | package (name : UInt16)
  deriving DecidableEq, Repr

namespace Constant

/-- Whether an entry takes two slots. -/
def isWide : Constant → Bool
  | .long _ | .double _ => true
  | _ => false

def slots (c : Constant) : Nat := if c.isWide then 2 else 1

theorem one_le_slots (c : Constant) : 1 ≤ c.slots := by
  unfold slots
  split
  · exact Nat.le_succ 1
  · exact Nat.le_refl 1

/-- The octets of an entry: its tag, then its fields. A text longer than its length field can
say keeps all its octets under the low digits of its length. -/
def encode : Constant → Bytes
  | .unusable => []
  | .utf8 text => 1 :: (count16 text.length ++ text)
  | .integer bits => 3 :: be32 bits
  | .float bits => 4 :: be32 bits
  | .long bits => 5 :: be64 bits
  | .double bits => 6 :: be64 bits
  | .class name => 7 :: be16 name
  | .string text => 8 :: be16 text
  | .fieldRef owner nt => 9 :: (be16 owner ++ be16 nt)
  | .methodRef owner nt => 10 :: (be16 owner ++ be16 nt)
  | .interfaceMethodRef owner nt => 11 :: (be16 owner ++ be16 nt)
  | .nameAndType name descriptor => 12 :: (be16 name ++ be16 descriptor)
  | .methodHandle kind reference => 15 :: kind :: be16 reference
  | .methodType descriptor => 16 :: be16 descriptor
  | .dynamic bootstrap nt => 17 :: (be16 bootstrap ++ be16 nt)
  | .invokeDynamic bootstrap nt => 18 :: (be16 bootstrap ++ be16 nt)
  | .module name => 19 :: be16 name
  | .package name => 20 :: be16 name

/-- An entry that is one 16-bit index. -/
def ofIndex (make : UInt16 → Constant) : Reader Constant := do
  let index ← Reader.stepwise16
  return make index

/-- An entry that is two 16-bit indices. -/
def ofPair (make : UInt16 → UInt16 → Constant) : Reader Constant := do
  let first ← Reader.stepwise16
  let second ← Reader.stepwise16
  return make first second

/-- The fields that follow a tag. A tag of no kind is a fault of entry 0: the caller knows the
true index. -/
def readFields (tag : UInt8) : Reader Constant :=
  match tag.toNat with
  | 1 => do
    let length ← Reader.stepwise16
    let text ← Reader.take length.toNat
    return .utf8 text
  | 3 => do
    let bits ← Reader.stepwise32
    return .integer bits
  | 4 => do
    let bits ← Reader.stepwise32
    return .float bits
  | 5 => do
    let bits ← Reader.stepwise64
    return .long bits
  | 6 => do
    let bits ← Reader.stepwise64
    return .double bits
  | 7 => ofIndex .class
  | 8 => ofIndex .string
  | 9 => ofPair .fieldRef
  | 10 => ofPair .methodRef
  | 11 => ofPair .interfaceMethodRef
  | 12 => ofPair .nameAndType
  | 15 => do
    let kind ← Reader.u8
    let reference ← Reader.stepwise16
    return .methodHandle kind reference
  | 16 => ofIndex .methodType
  | 17 => ofPair .dynamic
  | 18 => ofPair .invokeDynamic
  | 19 => ofIndex .module
  | 20 => ofIndex .package
  | _ => throw (.invalidConstant 0 .unknownTag)

def read : Reader Constant := do
  let tag ← Reader.u8
  readFields tag

end Constant

end PlatformLink
