import PlatformLink.Proofs.BytecodeLayout

/-! # Generated code says what it was made from

Generated code is loads, calls, pushes of strings and opcodes without operands
(`Instruction.IsGenerated`). `Instruction.ofOctets?` takes the octets of one such instruction apart
again, looking up in the pool what they refer to. Whatever the pool held at first, the octets that
generated code is written in are cut where its instructions end, and each part gives its
instruction back (`Instruction.split_encode`): the forms of a load, of a push and of a call are
told apart by their first octet.
-/

namespace PlatformLink
set_option autoImplicit false

/-! ## What is referred to -/

namespace ConstantPool

/-- The text of the string constant under an index. -/
def string? (pool : ConstantPool) (index : UInt16) : Option String :=
  match pool.get index with
  | .ok (.string textIndex) => (pool.text textIndex).toOption
  | _ => none

def nameAndType? (pool : ConstantPool) (index : UInt16) : Option (String × String) :=
  match pool.get index with
  | .ok (.nameAndType nameIndex descriptorIndex) => do
    let name ← (pool.text nameIndex).toOption
    let descriptor ← (pool.text descriptorIndex).toOption
    return (name, descriptor)
  | _ => none

def callOf? (pool : ConstantPool) (opcode : UInt8) (interface : Bool)
    (ownerIndex nameAndTypeIndex : UInt16) : Option Instruction := do
  let owner ← (pool.className ownerIndex).toOption
  let (name, descriptor) ← pool.nameAndType? nameAndTypeIndex
  return .invoke opcode owner name descriptor interface

/-- The call of the method under an index. -/
def call? (pool : ConstantPool) (opcode : UInt8) (index : UInt16) : Option Instruction :=
  match pool.get index with
  | .ok (.methodRef ownerIndex nameAndTypeIndex) =>
    pool.callOf? opcode false ownerIndex nameAndTypeIndex
  | .ok (.interfaceMethodRef ownerIndex nameAndTypeIndex) =>
    pool.callOf? opcode true ownerIndex nameAndTypeIndex
  | _ => none

theorem IsFirst.get {pool : ConstantPool} {index : UInt16} {c : Constant}
    (h : pool.IsFirst index c) (hc : c ≠ .unusable) : pool.get index = .ok c :=
  get_eq_ok_iff.2 ⟨h.1, hc⟩

theorem string?_of_isFirst {pool : ConstantPool} {index : UInt16} {text : String}
    (h : pool.IsFirstString index text) : pool.string? index = some text := by
  obtain ⟨textIndex, htext, hstring⟩ := h
  simp only [string?, hstring.get (by simp), htext.text]
  rfl

theorem nameAndType?_of_isFirst {pool : ConstantPool} {index : UInt16} {name descriptor : String}
    (h : pool.IsFirstNameAndType index name descriptor) :
    pool.nameAndType? index = some (name, descriptor) := by
  obtain ⟨nameIndex, hname, descriptorIndex, hdescriptor, hentry⟩ := h
  simp only [nameAndType?, hentry.get (by simp), hname.text, hdescriptor.text]
  rfl

theorem call?_of_isFirst {pool : ConstantPool} {index : UInt16} {owner name descriptor : String}
    {interface : Bool} (opcode : UInt8)
    (h : pool.IsFirstMethod index owner name descriptor interface) :
    pool.call? opcode index = some (.invoke opcode owner name descriptor interface) := by
  obtain ⟨ownerIndex, howner, nameAndTypeIndex, hnameAndType, hmethod⟩ := h
  have hcall : pool.callOf? opcode interface ownerIndex nameAndTypeIndex =
      some (.invoke opcode owner name descriptor interface) := by
    simp only [callOf?, howner.className, nameAndType?_of_isFirst hnameAndType]
    rfl
  cases interface with
  | false =>
    have hget : pool.get index = .ok (.methodRef ownerIndex nameAndTypeIndex) :=
      hmethod.get (by simp [methodConstant])
    simp only [call?, hget, hcall]
  | true =>
    have hget : pool.get index = .ok (.interfaceMethodRef ownerIndex nameAndTypeIndex) :=
      hmethod.get (by simp [methodConstant])
    simp only [call?, hget, hcall]

end ConstantPool

namespace Instruction

/-! ## Taking octets apart -/

/-- The opcodes `iload` to `aload`. -/
def IsLoad (opcode : UInt8) : Prop := 0x15 ≤ opcode.toNat ∧ opcode.toNat ≤ 0x19

/-- The opcodes `iload_0` to `aload_3`, which are a load and its slot at once. -/
def HoldsSlot (opcode : UInt8) : Prop := 0x1a ≤ opcode.toNat ∧ opcode.toNat ≤ 0x2d

/-- The opcodes `invokevirtual`, `invokespecial`, `invokestatic` and `invokeinterface`. -/
def IsCall (opcode : UInt8) : Prop := 0xb6 ≤ opcode.toNat ∧ opcode.toNat ≤ 0xb9

/-- The opcodes without operands, and those that no instruction has. -/
def IsAlone (opcode : UInt8) : Prop :=
  Bytecode.HasOperands opcode 0 ∨ (0xcb ≤ opcode.toNat ∧ opcode.toNat ≤ 0xfd)

instance (opcode : UInt8) : Decidable (IsLoad opcode) := inferInstanceAs (Decidable (_ ∧ _))

instance (opcode : UInt8) : Decidable (HoldsSlot opcode) := inferInstanceAs (Decidable (_ ∧ _))

instance (opcode : UInt8) : Decidable (IsCall opcode) := inferInstanceAs (Decidable (_ ∧ _))

instance (opcode : UInt8) : Decidable (IsAlone opcode) := inferInstanceAs (Decidable (_ ∨ _))

/-- The load that an opcode with its slot stands for: four slots a load. -/
def heldLoad (opcode : UInt8) : Instruction :=
  .variable (UInt8.ofNat (0x15 + (opcode.toNat - 0x1a) / 4))
    (UInt16.ofNat ((opcode.toNat - 0x1a) % 4))

/-- The load, call, push or opcode that some octets are. -/
def ofOctets? (pool : ConstantPool) : Bytes → Option Instruction
  | [opcode] => some (if HoldsSlot opcode then heldLoad opcode else .plain opcode)
  | [opcode, operand] =>
    if IsLoad opcode then some (.variable opcode (UInt16.ofNat operand.toNat))
    else if opcode = 0x12 then (pool.string? (UInt16.ofNat operand.toNat)).map .pushString
    else none
  | [opcode, a, b] =>
    if opcode = 0x13 then (pool.string? (ofBe16 a b)).map .pushString
    else if IsCall opcode ∧ opcode ≠ 0xb9 then pool.call? opcode (ofBe16 a b)
    else none
  | [wide, opcode, a, b] =>
    if wide = 0xc4 ∧ IsLoad opcode then some (.variable opcode (ofBe16 a b)) else none
  | [opcode, a, b, _, zero] =>
    if opcode = 0xb9 ∧ zero = 0 then pool.call? opcode (ofBe16 a b) else none
  | _ => none

/-- The instructions of generated code. -/
inductive IsGenerated : Instruction → Prop
  | load {opcode : UInt8} (h : IsLoad opcode) (slot : UInt16) : IsGenerated (.variable opcode slot)
  | call {opcode : UInt8} (h : IsCall opcode) (owner name descriptor : String) (interface : Bool) :
    IsGenerated (.invoke opcode owner name descriptor interface)
  | push (text : String) : IsGenerated (.pushString text)
  | alone {opcode : UInt8} (h : IsAlone opcode) : IsGenerated (.plain opcode)

/-! ## Loads -/

theorem exists_loadOpcode {opcode : UInt8} (h : IsLoad opcode) :
    ∃ kind : ValueKind, kind.loadOpcode = opcode := by
  have hcases : opcode.toNat = 0x15 ∨ opcode.toNat = 0x16 ∨ opcode.toNat = 0x17 ∨
      opcode.toNat = 0x18 ∨ opcode.toNat = 0x19 := by
    unfold IsLoad at h
    omega
  rcases hcases with hn | hn | hn | hn | hn
  · exact ⟨.int, (UInt8.toNat_inj.1 hn).symm⟩
  · exact ⟨.long, (UInt8.toNat_inj.1 hn).symm⟩
  · exact ⟨.float, (UInt8.toNat_inj.1 hn).symm⟩
  · exact ⟨.double, (UInt8.toNat_inj.1 hn).symm⟩
  · exact ⟨.reference, (UInt8.toNat_inj.1 hn).symm⟩

theorem ofOctets?_encodeVariable (pool : ConstantPool) {opcode : UInt8} (h : IsLoad opcode)
    (slot : UInt16) : ofOctets? pool (encodeVariable opcode slot) = some (.variable opcode slot) := by
  have hbounds := h
  unfold IsLoad at hbounds
  have hslot := slot.toNat_lt
  simp only [encodeVariable]
  split
  · rename_i hshort
    -- four octets for each of the five loads, so the quotient is the load and the remainder the slot
    let octet := 0x1a + (opcode.toNat - 0x15) * 4 + slot.toNat
    have hoctet : (UInt8.ofNat octet).toNat = octet := toNat_ofNat8 (by omega)
    have hholds : HoldsSlot (UInt8.ofNat octet) := by
      unfold HoldsSlot
      omega
    have hop : 0x15 + (octet - 0x1a) / 4 = opcode.toNat := by omega
    have hn : (octet - 0x1a) % 4 = slot.toNat := by omega
    show some (if HoldsSlot (UInt8.ofNat octet) then heldLoad (UInt8.ofNat octet)
      else .plain (UInt8.ofNat octet)) = _
    rw [if_pos hholds, heldLoad, hoctet, hop, hn, UInt8.ofNat_toNat, UInt16.ofNat_toNat]
  split
  · rename_i hshort hbyte
    simp only [ofOctets?, if_pos h]
    rw [toNat_ofNat8 hbyte, UInt16.ofNat_toNat]
  · show (if (0xc4 : UInt8) = 0xc4 ∧ IsLoad opcode then
      some (Instruction.variable opcode
        (ofBe16 (UInt8.ofNat (slot.toNat / 256)) (UInt8.ofNat slot.toNat))) else none) = _
    rw [if_pos ⟨rfl, h⟩, ofBe16_be16]

/-! ## Calls and pushes -/

/-- Only an interface call has octets after its index: the number of words it takes, and a zero. -/
theorem interfaceOperands_eq_ok {opcode : UInt8} {descriptor : String} {operands : Bytes}
    (h : interfaceOperands opcode descriptor = .ok operands) :
    (opcode = 0xb9 ∧ ∃ count, operands = [count, 0]) ∨ (opcode ≠ 0xb9 ∧ operands = []) := by
  unfold interfaceOperands at h
  by_cases hopcode : opcode = 0xb9
  · rw [if_pos hopcode, bind_eq_ok_iff] at h
    obtain ⟨d, -, hoperands⟩ := h
    exact .inl ⟨hopcode, _, (Except.ok.inj hoperands).symm⟩
  · rw [if_neg hopcode] at h
    exact .inr ⟨hopcode, (Except.ok.inj h).symm⟩

theorem isInstruction_call {opcode : UInt8} (h : IsCall opcode) {descriptor : String}
    {operands : Bytes} (ho : interfaceOperands opcode descriptor = .ok operands) (index : UInt16) :
    Bytecode.IsInstruction (opcode :: (be16 index ++ operands)) := by
  apply Bytecode.isInstruction_of_hasOperands
  rcases interfaceOperands_eq_ok ho with ⟨rfl, count, rfl⟩ | ⟨hopcode, rfl⟩
  · exact (by decide : Bytecode.HasOperands 0xb9 4)
  · have hne : opcode.toNat ≠ 0xb9 := fun hn => hopcode (UInt8.toNat_inj.1 hn)
    unfold IsCall at h
    refine ⟨⟨0xb2, 0xb8, 2⟩, by simp [Bytecode.operandTable], ?_, ?_, rfl⟩
    · show 0xb2 ≤ opcode.toNat
      omega
    · show opcode.toNat ≤ 0xb8
      omega

theorem ofOctets?_call {pool : ConstantPool} {opcode : UInt8} (h : IsCall opcode)
    {owner name descriptor : String} {interface : Bool} {index : UInt16} {operands : Bytes}
    (hindex : pool.IsFirstMethod index owner name descriptor interface)
    (ho : interfaceOperands opcode descriptor = .ok operands) :
    ofOctets? pool (opcode :: (be16 index ++ operands)) =
      some (.invoke opcode owner name descriptor interface) := by
  have hcall := ConstantPool.call?_of_isFirst opcode hindex
  rw [← ofBe16_be16 index] at hcall
  rcases interfaceOperands_eq_ok ho with ⟨rfl, count, rfl⟩ | ⟨hopcode, rfl⟩
  · exact hcall
  · have hpush : opcode ≠ 0x13 := by
      rintro rfl
      exact absurd h (by decide)
    simp only [ofOctets?, be16, List.append_nil, if_neg hpush, if_pos (And.intro h hopcode)]
    exact hcall

theorem ofOctets?_push {pool : ConstantPool} {text : String} {index : UInt16}
    (h : pool.IsFirstString index text) :
    ofOctets? pool (if index.toNat ≤ 255 then [0x12, UInt8.ofNat index.toNat]
      else 0x13 :: be16 index) = some (.pushString text) := by
  have hstring := ConstantPool.string?_of_isFirst h
  split
  · rename_i hbyte
    show ((pool.string? (UInt16.ofNat (UInt8.ofNat index.toNat).toNat)).map Instruction.pushString) = _
    rw [toNat_ofNat8 hbyte, UInt16.ofNat_toNat, hstring]
    rfl
  · show ((pool.string? (ofBe16 (UInt8.ofNat (index.toNat / 256)) (UInt8.ofNat index.toNat))).map
      Instruction.pushString) = _
    rw [ofBe16_be16, hstring]
    rfl

/-! ## Whole code -/

theorem isInstruction_unassigned {opcode : UInt8} (hlow : 0xcb ≤ opcode.toNat)
    (hhigh : opcode.toNat ≤ 0xfd) : Bytecode.IsInstruction [opcode] := by
  have hne (other : UInt8) (h : other.toNat < 0xcb) : opcode ≠ other := by
    rintro rfl
    omega
  refine Bytecode.isInstruction_of_fixedLength (hne _ (by decide)) (hne _ (by decide))
    (hne _ (by decide)) ?_
  simp only [Bytecode.fixedLength]
  repeat rw [if_neg (by omega)]
  rfl

theorem IsGenerated.isInstruction {pool : ConstantPool} {i : Instruction} {octets : Bytes}
    (h : i.IsGenerated) (he : i.IsEncoded pool octets) : Bytecode.IsInstruction octets := by
  cases h with
  | load hload slot =>
    obtain ⟨kind, rfl⟩ := exists_loadOpcode hload
    exact ((IsForwarding.load kind slot).isInstruction he).1
  | call hcall owner name descriptor interface =>
    obtain ⟨index, -, operands, hoperands, rfl⟩ := he
    exact isInstruction_call hcall hoperands index
  | push text =>
    obtain ⟨index, -, rfl⟩ := he
    exact isInstruction_push index
  | @alone opcode halone =>
    obtain rfl : octets = [opcode] := he
    rcases halone with hoperands | ⟨hlow, hhigh⟩
    · exact Bytecode.isInstruction_of_hasOperands hoperands
    · exact isInstruction_unassigned hlow hhigh

/-- Generated code is cut into one part for each of its instructions, and from the part and the
pool that the code left behind the instruction is found again. An opcode without operands is the
part itself; one that holds its slot also reads as the load that it stands for. -/
theorem split_encode {instructions : List Instruction} {pool pool' : ConstantPool}
    {octets : List Bytes} (hgenerated : ∀ i ∈ instructions, i.IsGenerated)
    (h : instructions.mapM encode pool = (.ok octets, pool')) :
    ∃ parts, Bytecode.split octets.flatten = .ok parts ∧
      List.Forall₂ (fun i part =>
        match i with
        | .plain opcode => part = [opcode] ∧
          (¬ HoldsSlot opcode → ofOctets? pool' part = some (.plain opcode))
        | other => ofOctets? pool' part = some other) instructions parts := by
  -- what was encoded while the pool was growing is right for the pool that it grew to
  obtain ⟨-, hencoded⟩ := (Interning.Spec.mapM spec_encode instructions).sound h
  have hboth := (List.forall₂_and_left _ _).2 ⟨hgenerated, hencoded⟩
  have hparts : ∀ part ∈ octets, Bytecode.IsInstruction part :=
    forall_mem_right_of_forall₂ hboth fun i part hi => hi.1.isInstruction hi.2
  refine ⟨octets, Bytecode.split_flatten hparts, hboth.imp ?_⟩
  rintro i part ⟨hi, he⟩
  cases hi with
  | load hload slot =>
    obtain rfl := he
    exact ofOctets?_encodeVariable pool' hload slot
  | call hcall owner name descriptor interface =>
    obtain ⟨index, hindex, operands, hoperands, rfl⟩ := he
    exact ofOctets?_call hcall hindex hoperands
  | push text =>
    obtain ⟨index, hindex, rfl⟩ := he
    exact ofOctets?_push hindex
  | @alone opcode halone =>
    obtain rfl : part = [opcode] := he
    refine ⟨rfl, fun hholds => ?_⟩
    simp only [ofOctets?, if_neg hholds]

/-- Loads in all their forms, two calls that share their constants, a push and two opcodes. -/
def generatedSample : List Instruction := [
  .variable 0x19 3, .variable 0x18 4, .variable 0x15 255, .variable 0x16 256, .plain 0x2a,
  .invoke 0xb9 "a/B" "run" "(JI)V" true, .invoke 0xb8 "a/B" "run" "(JI)V" false,
  .pushString "run", .plain 0xb0]

theorem split_encode_sample :
    ∃ octets pool', generatedSample.mapM encode .empty = (.ok octets, pool') ∧
      ∃ parts, Bytecode.split octets.flatten = .ok parts ∧
        List.Forall₂ (fun i part =>
          match i with
          | .plain opcode => part = [opcode] ∧
            (¬ HoldsSlot opcode → ofOctets? pool' part = some (.plain opcode))
          | other => ofOctets? pool' part = some other) generatedSample parts := by
  have hgenerated : ∀ i ∈ generatedSample, i.IsGenerated := by
    simp only [generatedSample, List.forall_mem_cons, List.not_mem_nil, false_implies,
      implies_true, and_true]
    exact ⟨.load (by decide) _, .load (by decide) _, .load (by decide) _, .load (by decide) _,
      .alone (by decide), .call (by decide) _ _ _ _, .call (by decide) _ _ _ _, .push _,
      .alone (by decide)⟩
  have hok : (generatedSample.mapM encode .empty).1.isOk = true := by decide +kernel
  cases hrun : generatedSample.mapM encode .empty with
  | mk result pool' =>
    cases result with
    | error e =>
      rw [hrun] at hok
      cases hok
    | ok octets => exact ⟨octets, pool', rfl, split_encode hgenerated hrun⟩

end Instruction

end PlatformLink
