/-! # What can be wrong with a class file

One constructor for each cause met while a class is read, rewritten or written, and the one
sentence it is reported with (`ClassError.message`).
-/

namespace PlatformLink
set_option autoImplicit false

/-! ## Hexadecimal numbers in messages -/

/-- The base-16 digits of a number, lower case, at least `width` of them. -/
def hexDigits (width n : Nat) : String :=
  let digits := Nat.toDigits 16 n
  String.ofList (List.replicate (width - digits.length) '0' ++ digits)

/-! ## Causes -/

/-- What is wrong with one entry of a constant pool. -/
inductive PoolFault where
  /-- The entry starts with a tag that names no kind of constant. -/
  | unknownTag
  /-- The entries do not fill the announced number of slots exactly. -/
  | wideOverflow
  /-- The index names no entry, or the unusable slot of a wide one. -/
  | outOfRange
  /-- The entry is not a text. -/
  | notText
  /-- The entry is not a class. -/
  | notClass
  deriving DecidableEq, Repr

def PoolFault.message : PoolFault → String
  | .unknownTag => "unknown tag"
  | .wideOverflow => "wide constant overflows pool count"
  | .outOfRange => "index out of range"
  | .notText => "expected CONSTANT_Utf8"
  | .notClass => "expected CONSTANT_Class"

/-- Why a class could not be read, rewritten or written. -/
inductive ClassError where
  /-- The octets end, or stop making sense, at this offset. -/
  | truncated (offset : Nat)
  /-- The first four octets are not those of a class file. -/
  | badMagic (found : UInt32)
  | invalidConstant (index : UInt16) (fault : PoolFault)
  /-- A text constant is not modified UTF-8. -/
  | invalidText
  | malformedDescriptor (descriptor : String)
  /-- A required property has no value. -/
  | missingProperty (key : String)
  /-- The constant pool has no slot left. -/
  | poolOverflow
  /-- The frame of a method holds an instruction of unknown stack effect. -/
  | unknownStackEffect (method : String) (opcode : UInt8)
  /-- A generated class is refused by the second grammar. -/
  | unacceptable (path : String)
  deriving DecidableEq, Repr

/-- The sentence that says a generated class is refused by the second grammar. -/
def unacceptableMessage (path : String) : String := s!"emitted class {path} does not parse"

/-- The sentence an error is reported with. -/
def ClassError.message : ClassError → String
  | .truncated offset => s!"class file truncated at offset 0x{hexDigits 1 offset}"
  | .badMagic found => s!"invalid magic 0x{hexDigits 8 found.toNat}: expected 0xcafebabe"
  | .invalidConstant index fault =>
    s!"invalid constant pool entry #{index.toNat}: {fault.message}"
  | .invalidText => "invalid modified UTF-8 in constant pool"
  | .malformedDescriptor descriptor => s!"malformed descriptor: {descriptor}"
  | .missingProperty key => s!"{key} is not present!"
  | .poolOverflow => "constant pool exceeds 65535 entries"
  | .unknownStackEffect method opcode =>
    s!"cannot compute max stack for {method}: opaque instruction 0x{hexDigits 2 opcode.toNat}"
  | .unacceptable path => s!"I/O error: {unacceptableMessage path}"

end PlatformLink
