import PlatformLink.Constant
import PlatformLink.Text.ModifiedUtf8

/-! # Constant pools

A pool holds its entries under the indices 1, 2, … and only ever grows at its end, so that an
index written down anywhere stays valid. Adding an entry (`intern`) returns the index of an equal
one when there is one; a composite entry is added after its parts, and the parts stay when the
composite no longer fits.
-/

namespace PlatformLink
set_option autoImplicit false

/-- A constant pool: `entries` holds the slots from index 1 on, at most 65534 of them. -/
structure ConstantPool where
  entries : Array Constant
  size_lt : entries.size < 65535

namespace ConstantPool

def empty : ConstantPool := ⟨#[], by decide⟩

/-- The number of slots, counting slot 0 which is never used. -/
def slotCount (pool : ConstantPool) : Nat := pool.entries.size + 1

/-- There is room for an entry whose slots do not exceed the limit. -/
theorem size_push_lt {pool : ConstantPool} {c : Constant}
    (h : pool.slotCount + c.slots ≤ 65535) : (pool.entries.push c).size < 65535 := by
  have room : pool.entries.size + 1 + c.slots ≤ 65535 := h
  have used : 1 ≤ c.slots := c.one_le_slots
  rw [Array.size_push]
  omega

/-! ## Looking up -/

def get (pool : ConstantPool) (index : UInt16) : Except ClassError Constant :=
  if index.toNat = 0 then .error (.invalidConstant index .outOfRange)
  else
    match pool.entries[index.toNat - 1]? with
    | none | some .unusable => .error (.invalidConstant index .outOfRange)
    | some c => .ok c

def text (pool : ConstantPool) (index : UInt16) : Except ClassError String := do
  match ← pool.get index with
  | .utf8 octets =>
    match ModifiedUtf8.decode? octets with
    | some text => .ok text
    | none => .error .invalidText
  | _ => .error (.invalidConstant index .notText)

def className (pool : ConstantPool) (index : UInt16) : Except ClassError String := do
  match ← pool.get index with
  | .class name => pool.text name
  | _ => .error (.invalidConstant index .notClass)

/-! ## Reading and writing -/

/-- A slot array with one more entry, and the unusable slot after a wide one. -/
def extend (entries : Array Constant) (c : Constant) : Array Constant :=
  if c.isWide then (entries.push c).push .unusable else entries.push c

theorem size_lt_size_extend (entries : Array Constant) (c : Constant) :
    entries.size < (extend entries c).size := by
  unfold extend
  split
  · simp only [Array.size_push]
    omega
  · simp

/-- An error of an entry, told of the entry under `index`. -/
def atIndex (index : Nat) : ClassError → ClassError
  | .invalidConstant _ fault => .invalidConstant (UInt16.ofNat index) fault
  | e => e

/-- Entries are read until, with slot 0, the slots are at least `count`. -/
def readEntries (count : Nat) (entries : Array Constant) : Reader (Array Constant) := fun c =>
  if entries.size + 1 < count then
    match Constant.read c with
    | .ok (constant, c') => readEntries count (extend entries constant) c'
    | .error e => .error (atIndex (entries.size + 1) e)
  else .ok (entries, c)
termination_by count - entries.size
decreasing_by
  have := size_lt_size_extend entries constant
  omega

/-- A pool: the number of its slots, then its entries, which fill the slots exactly. -/
def read : Reader ConstantPool := do
  let count ← Reader.u16
  let entries ← readEntries count.toNat #[]
  if h : entries.size + 1 = count.toNat then
    return ⟨entries, by have := count.toNat_lt; omega⟩
  else throw (.invalidConstant (UInt16.ofNat (count.toNat - 1)) .wideOverflow)

def encode (pool : ConstantPool) : Bytes :=
  count16 pool.slotCount ++ pool.entries.toList.flatMap Constant.encode

end ConstantPool

/-! ## Adding -/

/-- A computation that adds entries to a pool. What was added before a failure stays. -/
abbrev Interning := ExceptT ClassError (StateM ConstantPool)

namespace Interning

/-- The index of an entry equal to `c`, the first if there are several; a new last entry if
there is none. -/
def intern (c : Constant) : Interning UInt16 := fun pool =>
  match pool.entries.findIdx? (· == c) with
  | some i => (.ok (UInt16.ofNat (i + 1)), pool)
  | none =>
    if h : pool.slotCount + c.slots ≤ 65535 then
      (.ok (UInt16.ofNat pool.slotCount),
        ⟨pool.entries.push c, ConstantPool.size_push_lt h⟩)
    else (.error .poolOverflow, pool)

def text (value : String) : Interning UInt16 := intern (.utf8 (ModifiedUtf8.encode value))

/-- The index of a class, after the text of its name. -/
def className (name : String) : Interning UInt16 := do
  let nameIndex ← text name
  intern (.class nameIndex)

/-- The index of a string constant, after its text. -/
def string (value : String) : Interning UInt16 := do
  let textIndex ← text value
  intern (.string textIndex)

/-- The index of a name and a descriptor, after the text of each. -/
def nameAndType (name descriptor : String) : Interning UInt16 := do
  let nameIndex ← text name
  let descriptorIndex ← text descriptor
  intern (.nameAndType nameIndex descriptorIndex)

/-- The index of a method of a class or interface, after its owner and its name and type. -/
def methodRef (owner name descriptor : String) (interface : Bool) : Interning UInt16 := do
  let ownerIndex ← className owner
  let nameAndTypeIndex ← nameAndType name descriptor
  if interface then intern (.interfaceMethodRef ownerIndex nameAndTypeIndex)
  else intern (.methodRef ownerIndex nameAndTypeIndex)

end Interning

end PlatformLink
