import PlatformLink.ClassFile

/-! # Frame sizes

The frame of a method whose body is straight-line generated code: how each instruction moves the
operand stack (`effect`), the greatest depth on the way (`Depth.run`), and the least number of
local variables that holds the parameters and every variable named (`localsOf`). An instruction
of unknown effect has no frame size. Words and variables are counted in sixteen bits and the depth
in thirty-two, so larger counts wrap around.
-/

namespace PlatformLink.Frame
set_option autoImplicit false

/-- The stack words that an instruction takes and those it leaves. -/
structure Effect where
  pops : UInt16
  pushes : UInt16
  deriving DecidableEq, Repr

/-- The words of the value behind an opcode with a local variable. -/
def variableSlots (opcode : UInt8) : UInt16 := if opcode = 0x16 ∨ opcode = 0x18 then 2 else 1

/-- The effect of the opcodes without operands that generated code may hold. -/
def plainEffect? (opcode : UInt8) : Option Effect :=
  let n := opcode.toNat
  if n = 0xb1 then some ⟨0, 0⟩
  else if n = 0xac ∨ n = 0xae ∨ n = 0xb0 ∨ n = 0xbf then some ⟨1, 0⟩
  else if n = 0xad ∨ n = 0xaf then some ⟨2, 0⟩
  else if n = 0x01 then some ⟨0, 1⟩
  else none

/-- The effect of a call: its parameters, and the receiver unless it is static, give way to its
result. -/
def callEffect (opcode : UInt8) (d : MethodDescriptor) : Effect :=
  ⟨d.slotSum + (if opcode = 0xb8 then 0 else 1), UInt16.ofNat d.returnType.kind.slots⟩

/-- The effect of an instruction of the method `m`. -/
def effect (m : Method) (instruction : Instruction) : Except ClassError Effect :=
  let unknown := ClassError.unknownStackEffect (m.name ++ m.descriptor) instruction.opcode
  match instruction with
  | .variable opcode _ => .ok ⟨0, variableSlots opcode⟩
  | .invoke opcode _ _ descriptor _ =>
    (MethodDescriptor.ofString descriptor).map (callEffect opcode)
  | .pushString _ => .ok ⟨0, 1⟩
  | .plain opcode =>
    match plainEffect? opcode with
    | some e => .ok e
    | none => .error unknown
  | .raw _ => .error unknown

/-- The depth of the stack, and the greatest so far. -/
structure Depth where
  current : Int32
  greatest : Int32
  deriving DecidableEq, Repr

def Depth.step (d : Depth) (e : Effect) : Depth :=
  let next := d.current - Int32.ofNat e.pops.toNat + Int32.ofNat e.pushes.toNat
  ⟨next, max d.greatest next⟩

theorem Depth.toInt_step_current {d : Depth} {e : Effect}
    (hlow : -2147483648 ≤ d.current.toInt - e.pops.toNat + e.pushes.toNat)
    (hhigh : d.current.toInt - e.pops.toNat + e.pushes.toNat ≤ 2147483647) :
    (d.step e).current.toInt = d.current.toInt - e.pops.toNat + e.pushes.toNat := by
  have hpops := e.pops.toNat_lt
  have hpushes := e.pushes.toNat_lt
  simp only [step, Int32.toInt_add, Int32.toInt_sub]
  rw [Int32.toInt_ofNat_of_lt (by omega), Int32.toInt_ofNat_of_lt (by omega), Int.bmod_add_bmod]
  exact Int.bmod_eq_of_le (by omega) (by omega)

theorem Depth.toInt_step_greatest (d : Depth) (e : Effect) :
    (d.step e).greatest.toInt = max d.greatest.toInt (d.step e).current.toInt := by
  show (if d.greatest ≤ (d.step e).current then (d.step e).current else d.greatest).toInt = _
  split <;> rename_i h <;> rw [Int32.le_iff_toInt_le] at h <;> omega

def Depth.run (d : Depth) (effects : List Effect) : Depth := effects.foldl Depth.step d

/-- The number of local variables that an instruction asks for. -/
def variablesNeeded : Instruction → UInt16
  | .variable opcode slot => slot + variableSlots opcode
  | _ => 0

/-- The least number of local variables that holds `parameters` slots and what every instruction
asks for. -/
def localsOf (parameters : UInt16) (instructions : List Instruction) : UInt16 :=
  instructions.foldl (fun n i => max n (variablesNeeded i)) parameters

def compute (m : Method) (instructions : List Instruction) : Except ClassError FrameSize := do
  let d ← MethodDescriptor.ofString m.descriptor
  let effects ← instructions.mapM (effect m)
  let depth := Depth.run ⟨0, 0⟩ effects
  let receiver := if m.isStatic then 0 else 1
  return ⟨UInt16.ofInt depth.greatest.toInt, localsOf (d.slotSum + receiver) instructions⟩

end PlatformLink.Frame
