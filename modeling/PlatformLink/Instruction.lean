import PlatformLink.Bytecode
import PlatformLink.ConstantPool
import PlatformLink.Descriptor

/-! # Instructions

An instruction is either carried through as the octets it was read from, or one of the few kinds
that generated code is made of. `Instruction.encode` gives the octets, adding to the constant
pool what a generated instruction refers to.
-/

namespace PlatformLink
set_option autoImplicit false

/-- An instruction of a method body. -/
inductive Instruction where
  /-- An opcode with a local variable, such as a load. -/
  | variable (opcode : UInt8) (slot : UInt16)
  /-- A call of a method. -/
  | invoke (opcode : UInt8) (owner name descriptor : String) (interface : Bool)
  /-- The push of a string constant. -/
  | pushString (text : String)
  /-- An opcode without operands. -/
  | plain (opcode : UInt8)
  /-- The octets of an instruction that was read. -/
  | raw (octets : Bytes)
  deriving DecidableEq, Repr

namespace Instruction

/-- The opcode of an instruction; no octets at all count as opcode 0. -/
def opcode : Instruction → UInt8
  | .variable opcode _ => opcode
  | .invoke opcode _ _ _ _ => opcode
  | .pushString _ => 0x12
  | .plain opcode => opcode
  | .raw octets => octets.headD 0

/-- The octets of an opcode with a local variable. The five loads have one-octet forms for the
slots 0 to 3; a slot above 255 needs the `wide` form. -/
def encodeVariable (opcode : UInt8) (slot : UInt16) : Bytes :=
  let op := opcode.toNat
  let n := slot.toNat
  if 0x15 ≤ op ∧ op ≤ 0x19 ∧ n ≤ 3 then [UInt8.ofNat (0x1a + (op - 0x15) * 4 + n)]
  else if n ≤ 255 then [opcode, UInt8.ofNat n]
  else 0xc4 :: opcode :: be16 slot

/-- The operands of a call after its method index: an `invokeinterface` repeats the number of
stack words it takes, receiver included, before a zero. -/
def interfaceOperands (opcode : UInt8) (descriptor : String) : Except ClassError Bytes :=
  if opcode = 0xb9 then do
    let d ← MethodDescriptor.ofString descriptor
    return [(d.slotSum + 1).toUInt8, 0]
  else .ok []

def encode : Instruction → Interning Bytes
  | .variable opcode slot => return encodeVariable opcode slot
  | .invoke opcode owner name descriptor interface => do
    let index ← Interning.methodRef owner name descriptor interface
    let operands ← (interfaceOperands opcode descriptor : Except ClassError Bytes)
    return opcode :: (be16 index ++ operands)
  | .pushString text => do
    let index ← Interning.string text
    if index.toNat ≤ 255 then return [0x12, UInt8.ofNat index.toNat]
    else return 0x13 :: be16 index
  | .plain opcode => return [opcode]
  | .raw octets => return octets

end Instruction

end PlatformLink
