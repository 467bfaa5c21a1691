import PlatformLink.Instruction
import PlatformLink.Proofs.InterningSpec

/-! # The octets of instructions

A code array is its instructions one after another (`Bytecode.flatten_of_split`), and octets that
are one instruction wherever they stand are found again (`Bytecode.split_flatten`). The
instructions that generated bodies are made of are of that kind
(`Instruction.IsForwarding.isInstruction`). A load has one of three forms (`Instruction.loadOctets`).
-/

namespace PlatformLink
set_option autoImplicit false

namespace Bytecode

theorem flatten_of_splitAfter {done : List Bytes} {offset : Nat} {code : Bytes}
    {parts : List Bytes} (h : splitAfter done offset code = .ok parts) :
    parts.flatten = done.reverse.flatten ++ code := by
  fun_induction splitAfter done offset code with
  | case1 done offset code hempty =>
    cases h
    rw [List.isEmpty_iff.1 hempty, List.append_nil]
  | case2 done offset code hne e he => cases h
  | case3 done offset code hne n hn ih =>
    rw [ih h, List.reverse_cons, List.flatten_append, List.flatten_singleton, List.append_assoc,
      List.take_append_drop]

theorem flatten_of_split {code : Bytes} {parts : List Bytes} (h : split code = .ok parts) :
    parts.flatten = code :=
  flatten_of_splitAfter h

theorem lengthAt_eq_ok_iff {offset n : Nat} {code : Bytes} :
    lengthAt offset code = .ok n ↔ wantedLength offset code = .ok n ∧ n ≤ code.length := by
  unfold lengthAt
  cases wantedLength offset code with
  | error e => simp [bind, Except.bind]
  | ok m =>
    simp only [bind, Except.bind, List.length_take]
    by_cases h : min m code.length < m
    · rw [if_pos h]
      simp only [throw, throwThe, MonadExceptOf.throw, reduceCtorEq, Except.ok.injEq, false_iff,
        not_and]
      omega
    · rw [if_neg h]
      simp only [pure, Except.pure, Except.ok.injEq]
      omega

/-- Octets that are one instruction, at every offset and whatever follows. -/
def IsInstruction (octets : Bytes) : Prop :=
  ∀ offset rest, lengthAt offset (octets ++ rest) = .ok octets.length

theorem splitAfter_flatten (offset : Nat) {parts : List Bytes}
    (h : ∀ part ∈ parts, IsInstruction part) :
    splitAfter [] offset parts.flatten = .ok parts := by
  induction parts generalizing offset with
  | nil => exact splitAfter_nil [] offset
  | cons part parts ih =>
    have hpart := h part List.mem_cons_self offset parts.flatten
    rw [List.flatten_cons, splitAfter_of_lengthAt hpart, List.drop_left, List.take_left,
      ih _ fun p hp => h p (List.mem_cons_of_mem part hp)]
    rfl

theorem split_flatten {parts : List Bytes} (h : ∀ part ∈ parts, IsInstruction part) :
    split parts.flatten = .ok parts :=
  splitAfter_flatten 0 h

/-- An opcode that is no switch and no `wide` decides the length. -/
theorem isInstruction_of_fixedLength {opcode : UInt8} {operands : Bytes} (hwide : opcode ≠ 0xc4)
    (htable : opcode ≠ 0xaa) (hlookup : opcode ≠ 0xab)
    (h : fixedLength opcode = operands.length + 1) : IsInstruction (opcode :: operands) := by
  intro offset rest
  refine lengthAt_eq_ok_iff.2 ⟨?_, by simp⟩
  rw [List.cons_append, wantedLength, if_neg hwide, if_neg htable, if_neg hlookup, h]
  rfl

theorem isInstruction_wide {opcode a b : UInt8} (h : opcode ≠ 0x84) :
    IsInstruction [0xc4, opcode, a, b] := by
  intro offset rest
  refine lengthAt_eq_ok_iff.2 ⟨?_, by simp⟩
  simp [wantedLength, wideLength, h]

end Bytecode

namespace Instruction

/-! ## Loads -/

/-- The octets of a load: the slots 0 to 3 are part of the opcode, the others up to 255 are an
octet after it, and a larger one needs the `wide` form. -/
def loadOctets (opcode : UInt8) (slot : Nat) : Bytes :=
  if slot ≤ 3 then [UInt8.ofNat (0x1a + 4 * (opcode.toNat - 0x15) + slot)]
  else if slot ≤ 255 then [opcode, UInt8.ofNat slot]
  else [0xc4, opcode, UInt8.ofNat (slot / 256), UInt8.ofNat slot]

theorem loadOpcode_bounds (kind : ValueKind) :
    0x15 ≤ kind.loadOpcode.toNat ∧ kind.loadOpcode.toNat ≤ 0x19 := by
  cases kind <;> decide

theorem encodeVariable_eq_loadOctets (kind : ValueKind) {slot : Nat} (h : slot ≤ 65535) :
    encodeVariable kind.loadOpcode (UInt16.ofNat slot) = loadOctets kind.loadOpcode slot := by
  have hop := loadOpcode_bounds kind
  have hslot : (UInt16.ofNat slot).toNat = slot := toNat_ofNat16 h
  simp only [encodeVariable, loadOctets, hslot, hop, true_and, be16, Nat.mul_comm 4]

theorem length_loadOctets_le (opcode : UInt8) (slot : Nat) : (loadOctets opcode slot).length ≤ 4 := by
  unfold loadOctets
  split
  · exact Nat.le_of_ble_eq_true rfl
  split
  · exact Nat.le_of_ble_eq_true rfl
  · exact Nat.le_of_ble_eq_true rfl

theorem isInstruction_loadOctets (kind : ValueKind) (slot : Nat) :
    Bytecode.IsInstruction (loadOctets kind.loadOpcode slot) := by
  unfold loadOctets
  split
  · rename_i hslot
    have hslots : slot = 0 ∨ slot = 1 ∨ slot = 2 ∨ slot = 3 := by omega
    rcases hslots with rfl | rfl | rfl | rfl <;> cases kind <;>
      exact Bytecode.isInstruction_of_fixedLength (by decide) (by decide) (by decide) (by decide)
  split
  · cases kind <;>
      exact Bytecode.isInstruction_of_fixedLength (by decide) (by decide) (by decide) rfl
  · cases kind <;> exact Bytecode.isInstruction_wide (by decide)

theorem isInstruction_returnOpcode (kind : ValueKind) :
    Bytecode.IsInstruction [kind.returnOpcode] := by
  cases kind <;>
    exact Bytecode.isInstruction_of_fixedLength (by decide) (by decide) (by decide) (by decide)

theorem isInstruction_invokestatic (index : UInt16) :
    Bytecode.IsInstruction (0xb8 :: be16 index) :=
  Bytecode.isInstruction_of_fixedLength (by decide) (by decide) (by decide)
    (by rw [be16_length]; decide)

theorem isInstruction_push (index : UInt16) : Bytecode.IsInstruction
    (if index.toNat ≤ 255 then [0x12, UInt8.ofNat index.toNat] else 0x13 :: be16 index) := by
  split
  · exact Bytecode.isInstruction_of_fixedLength (by decide) (by decide) (by decide) rfl
  · exact Bytecode.isInstruction_of_fixedLength (by decide) (by decide) (by decide)
      (by rw [be16_length]; decide)

/-! ## Writing -/

/-- The octets of an instruction whose constants are in the pool. -/
def IsEncoded (pool : ConstantPool) : Instruction → Bytes → Prop
  | .variable opcode slot, octets => octets = encodeVariable opcode slot
  | .invoke opcode owner name descriptor interface, octets =>
    ∃ index, pool.IsFirstMethod index owner name descriptor interface ∧
      ∃ operands, interfaceOperands opcode descriptor = .ok operands ∧
        octets = opcode :: (be16 index ++ operands)
  | .pushString text, octets =>
    ∃ index, pool.IsFirstString index text ∧
      octets = if index.toNat ≤ 255 then [0x12, UInt8.ofNat index.toNat] else 0x13 :: be16 index
  | .plain opcode, octets => octets = [opcode]
  | .raw kept, octets => octets = kept

/-- The instructions that pass parameters on and return a result. -/
inductive IsForwarding : Instruction → Prop
  | load (kind : ValueKind) (slot : UInt16) : IsForwarding (.variable kind.loadOpcode slot)
  | call (owner name descriptor : String) : IsForwarding (.invoke 0xb8 owner name descriptor false)
  | done (kind : ValueKind) : IsForwarding (.plain kind.returnOpcode)

theorem IsForwarding.isInstruction {pool : ConstantPool} {i : Instruction} {octets : Bytes}
    (h : i.IsForwarding) (he : i.IsEncoded pool octets) :
    Bytecode.IsInstruction octets ∧ octets.length ≤ 4 := by
  cases h with
  | load kind slot =>
    have hslot := slot.toNat_lt
    have hload := encodeVariable_eq_loadOctets kind (show slot.toNat ≤ 65535 by omega)
    rw [UInt16.ofNat_toNat] at hload
    obtain rfl : octets = loadOctets kind.loadOpcode slot.toNat := hload ▸ he
    exact ⟨isInstruction_loadOctets kind _, length_loadOctets_le _ _⟩
  | call owner name descriptor =>
    obtain ⟨index, -, operands, hoperands, rfl⟩ := he
    have hempty : [] = operands := Except.ok.inj hoperands
    rw [← hempty, List.append_nil]
    exact ⟨isInstruction_invokestatic index, Nat.le_of_ble_eq_true rfl⟩
  | done kind =>
    obtain rfl : octets = [kind.returnOpcode] := he
    exact ⟨isInstruction_returnOpcode kind, Nat.le_of_ble_eq_true rfl⟩

theorem spec_encode (i : Instruction) :
    Interning.Spec i.encode fun pool octets => i.IsEncoded pool octets := by
  cases i with
  | «variable» opcode slot => exact Interning.Spec.pure _
  | invoke opcode owner name descriptor interface =>
    exact (Interning.Spec.methodRef owner name descriptor interface).bind fun index =>
      (Interning.Spec.lift (interfaceOperands opcode descriptor)).bind fun operands =>
        Interning.Spec.pure _
  | pushString text =>
    refine (Interning.Spec.string text).bind fun index => ?_
    split
    · exact Interning.Spec.pure _
    · exact Interning.Spec.pure _
  | plain opcode => exact Interning.Spec.pure _
  | raw octets => exact Interning.Spec.pure _

theorem forall₂_isEncoded_raw_iff {pool : ConstantPool} {parts octets : List Bytes} :
    List.Forall₂ (fun i part => IsEncoded pool i part) (parts.map .raw) octets ↔ octets = parts := by
  rw [List.forall₂_map_left_iff]
  simp only [IsEncoded, eq_comm, List.forall₂_eq_eq_eq]

end Instruction

end PlatformLink
