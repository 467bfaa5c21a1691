import PlatformLink.Proofs.InstructionOctets

/-! # Instructions laid out in a code array

The instructions of the machine (`Bytecode.Item`) with their octets, listed independently of how
code is cut: `Bytecode.operandTable` has the operands of every opcode that alone decides its
length, and the two switches are aligned by where they stand. `Bytecode.split_layout`: code laid
out from such instructions is cut into just these.
-/

namespace PlatformLink
set_option autoImplicit false

namespace Bytecode

/-! ## The instructions of the machine -/

/-- Opcodes next to each other with the same number of operand octets. -/
structure OpcodeRun where
  first : Nat
  last : Nat
  operands : Nat

/-- The opcodes whose instructions have one length each, in their order. The two switches (0xaa
and 0xab), `wide` (0xc4) and the opcodes without an instruction (0xcb to 0xfd) are left out. -/
def operandTable : List OpcodeRun := [
  ⟨0x00, 0x0f, 0⟩, -- nop, constants
  ⟨0x10, 0x10, 1⟩, -- bipush
  ⟨0x11, 0x11, 2⟩, -- sipush
  ⟨0x12, 0x12, 1⟩, -- ldc
  ⟨0x13, 0x14, 2⟩, -- ldc_w, ldc2_w
  ⟨0x15, 0x19, 1⟩, -- loads
  ⟨0x1a, 0x35, 0⟩, -- loads from the slots 0 to 3 and from arrays
  ⟨0x36, 0x3a, 1⟩, -- stores
  ⟨0x3b, 0x83, 0⟩, -- stores to the slots 0 to 3 and to arrays, stack, arithmetic
  ⟨0x84, 0x84, 2⟩, -- iinc
  ⟨0x85, 0x98, 0⟩, -- conversions, comparisons
  ⟨0x99, 0xa8, 2⟩, -- branches
  ⟨0xa9, 0xa9, 1⟩, -- ret
  ⟨0xac, 0xb1, 0⟩, -- returns
  ⟨0xb2, 0xb8, 2⟩, -- fields, calls
  ⟨0xb9, 0xba, 4⟩, -- invokeinterface, invokedynamic
  ⟨0xbb, 0xbb, 2⟩, -- new
  ⟨0xbc, 0xbc, 1⟩, -- newarray
  ⟨0xbd, 0xbd, 2⟩, -- anewarray
  ⟨0xbe, 0xbf, 0⟩, -- arraylength, athrow
  ⟨0xc0, 0xc1, 2⟩, -- checkcast, instanceof
  ⟨0xc2, 0xc3, 0⟩, -- monitors
  ⟨0xc5, 0xc5, 3⟩, -- multianewarray
  ⟨0xc6, 0xc7, 2⟩, -- branches on null
  ⟨0xc8, 0xc9, 4⟩, -- wide branches
  ⟨0xca, 0xca, 0⟩, -- breakpoint
  ⟨0xfe, 0xff, 0⟩] -- opcodes of an implementation's own

/-- The instructions of `opcode` have this many operand octets. -/
def HasOperands (opcode : UInt8) (count : Nat) : Prop :=
  ∃ run ∈ operandTable, run.first ≤ opcode.toNat ∧ opcode.toNat ≤ run.last ∧ run.operands = count

/-- The opcodes that `wide` gives a 16-bit index: loads, stores and `ret`. -/
def TakesIndex (opcode : UInt8) : Prop :=
  (0x15 ≤ opcode.toNat ∧ opcode.toNat ≤ 0x19) ∨ (0x36 ≤ opcode.toNat ∧ opcode.toNat ≤ 0x3a) ∨
    opcode.toNat = 0xa9

/-- An instruction of the machine. Branch targets are kept as the numbers they are written as. -/
inductive Item where
  | fixed (opcode : UInt8) (operands : Bytes)
  | wide (opcode : UInt8) (index : UInt16)
  | wideIncrement (index amount : UInt16)
  | tableSwitch (filler : Bytes) (default low high : Int32) (targets : List Int32)
  | lookupSwitch (filler : Bytes) (default : Int32) (pairs : List (Int32 × Int32))

namespace Item

/-- The four octets of a signed number. -/
def signed (n : Int32) : Bytes := be32 n.toUInt32

def encode : Item → Bytes
  | fixed opcode operands => opcode :: operands
  | wide opcode index => 0xc4 :: opcode :: be16 index
  | wideIncrement index amount => 0xc4 :: 0x84 :: (be16 index ++ be16 amount)
  | tableSwitch filler default low high targets =>
    0xaa :: filler ++ signed default ++ signed low ++ signed high ++ targets.flatMap signed
  | lookupSwitch filler default pairs =>
    0xab :: filler ++ signed default ++ signed (Int32.ofNat pairs.length) ++
      pairs.flatMap fun pair => signed pair.1 ++ signed pair.2

/-- After a switch opcode at `offset` come up to three octets, whatever they are, and the rest is
aligned. -/
def Aligns (offset : Nat) (filler : Bytes) : Prop :=
  filler.length ≤ 3 ∧ (offset + 1 + filler.length) % 4 = 0

/-- The instruction can stand at `offset`. -/
def StandsAt (offset : Nat) : Item → Prop
  | fixed opcode operands => HasOperands opcode operands.length
  | wide opcode _ => TakesIndex opcode
  | wideIncrement _ _ => True
  | tableSwitch filler _ low high targets =>
    Aligns offset filler ∧ low ≤ high ∧ (targets.length : Int) = high.toInt - low.toInt + 1
  | lookupSwitch filler _ pairs => Aligns offset filler ∧ pairs.length < 2147483648

instance (opcode : UInt8) (count : Nat) : Decidable (HasOperands opcode count) :=
  inferInstanceAs (Decidable (∃ run ∈ operandTable, _))

instance (opcode : UInt8) : Decidable (TakesIndex opcode) :=
  inferInstanceAs (Decidable (_ ∨ _ ∨ _))

instance (offset : Nat) (filler : Bytes) : Decidable (Aligns offset filler) :=
  inferInstanceAs (Decidable (_ ∧ _))

instance (offset : Nat) : (item : Item) → Decidable (item.StandsAt offset)
  | fixed opcode operands => inferInstanceAs (Decidable (HasOperands opcode operands.length))
  | wide opcode _ => inferInstanceAs (Decidable (TakesIndex opcode))
  | wideIncrement _ _ => inferInstanceAs (Decidable True)
  | tableSwitch _ _ _ _ _ => inferInstanceAs (Decidable (_ ∧ _ ∧ _))
  | lookupSwitch _ _ _ => inferInstanceAs (Decidable (_ ∧ _))

end Item

/-- Instructions that can stand one after another, the first at `offset`. -/
def LaidOut (offset : Nat) : List Item → Prop
  | [] => True
  | item :: items => item.StandsAt offset ∧ LaidOut (offset + item.encode.length) items

def LaidOut.decide : (offset : Nat) → (items : List Item) → Decidable (LaidOut offset items)
  | _, [] => inferInstanceAs (Decidable True)
  | offset, item :: items =>
    have := LaidOut.decide (offset + item.encode.length) items
    inferInstanceAs (Decidable (_ ∧ _))

instance (offset : Nat) (items : List Item) : Decidable (LaidOut offset items) :=
  LaidOut.decide offset items

/-! ## Lengths -/

/-- Octets that are one instruction at `offset`, whatever follows. -/
def IsInstructionAt (offset : Nat) (octets : Bytes) : Prop :=
  ∀ rest, lengthAt offset (octets ++ rest) = .ok octets.length

theorem splitAfter_append {offset : Nat} {octets rest : Bytes} (h : IsInstructionAt offset octets) :
    splitAfter [] offset (octets ++ rest) =
      (splitAfter [] (offset + octets.length) rest).map (octets :: ·) := by
  rw [splitAfter_of_lengthAt (h rest), List.drop_left, List.take_left]

/-- What cutting finds of an entry of the table, checked opcode by opcode. -/
theorem fixedLength_of_mem_operandTable (opcode : Fin 256) :
    ∀ run ∈ operandTable, run.first ≤ opcode.val → opcode.val ≤ run.last →
      fixedLength (UInt8.ofNat opcode.val) = run.operands + 1 ∧
        opcode.val ≠ 0xc4 ∧ opcode.val ≠ 0xaa ∧ opcode.val ≠ 0xab := by
  revert opcode
  decide +kernel

theorem isInstruction_of_hasOperands {opcode : UInt8} {operands : Bytes}
    (h : HasOperands opcode operands.length) : IsInstruction (opcode :: operands) := by
  obtain ⟨run, hrun, hfirst, hlast, hcount⟩ := h
  obtain ⟨hlength, hwide, htable, hlookup⟩ :=
    fixedLength_of_mem_operandTable ⟨opcode.toNat, opcode.toNat_lt⟩ run hrun hfirst hlast
  rw [UInt8.ofNat_toNat, hcount] at hlength
  refine isInstruction_of_fixedLength ?_ ?_ ?_ hlength <;> rintro rfl
  · exact hwide rfl
  · exact htable rfl
  · exact hlookup rfl

theorem not_takesIndex_iinc : ¬ TakesIndex 0x84 := by
  unfold TakesIndex
  decide

theorem isInstruction_wideIncrement (a b c d : UInt8) :
    IsInstruction [0xc4, 0x84, a, b, c, d] := by
  intro offset rest
  refine lengthAt_eq_ok_iff.2 ⟨?_, by simp⟩
  simp [wantedLength, wideLength]

/-! ## Switches -/

theorem signed32_toUInt32 (n : Int32) : signed32 n.toUInt32 = n.toInt := by
  have hn : n.toInt = n.toBitVec.toInt := rfl
  have hnat : n.toUInt32.toNat = n.toBitVec.toNat := rfl
  rw [hn, BitVec.toInt_eq_toNat_cond, signed32, hnat]
  split <;> split <;> omega

theorem length_of_aligns {offset : Nat} {filler : Bytes} (h : Item.Aligns offset filler) :
    filler.length = padding offset := by
  obtain ⟨hle, hmod⟩ := h
  unfold padding
  omega

@[simp] theorem Item.length_signed (n : Int32) : (Item.signed n).length = 4 := rfl

theorem length_switchFront {offset : Nat} {filler : Bytes} (opcode : UInt8) (default : Int32)
    (h : Item.Aligns offset filler) :
    (opcode :: filler ++ Item.signed default).length = 1 + padding offset + 4 := by
  rw [List.cons_append, List.length_cons, List.length_append, Item.length_signed,
    length_of_aligns h]
  omega

/-- A number that stands after `front` is found there. -/
theorem signedAt_append {offset position : Nat} {front : Bytes} (n : Int32) (rest : Bytes)
    (h : front.length = position) :
    signedAt offset position (front ++ (Item.signed n ++ rest)) = .ok n.toInt := by
  obtain ⟨a, b, c, d, habcd⟩ := exists_ofBe32 n.toUInt32
  rw [signedAt, ← h, List.drop_left, Item.signed, ← habcd, be32_ofBe32]
  simp only [List.cons_append, List.nil_append]
  rw [habcd, signed32_toUInt32]

theorem tableSwitchLength_eq {offset : Nat} {code : Bytes} {low high : Int}
    (hlow : signedAt offset (1 + padding offset + 4) code = .ok low)
    (hhigh : signedAt offset (1 + padding offset + 8) code = .ok high) (hle : low ≤ high + 1) :
    tableSwitchLength offset code = .ok (1 + padding offset + 12 + 4 * (high - low + 1).toNat) := by
  have hcount : ¬ high - low + 1 < 0 := by omega
  simp only [tableSwitchLength, hlow, hhigh, bind, Except.bind, if_neg hcount]
  rfl

theorem lookupSwitchLength_eq {offset : Nat} {code : Bytes} {pairs : Int}
    (hpairs : signedAt offset (1 + padding offset + 4) code = .ok pairs) (hle : 0 ≤ pairs) :
    lookupSwitchLength offset code = .ok (1 + padding offset + 8 + 8 * pairs.toNat) := by
  have hcount : ¬ pairs < 0 := by omega
  simp only [lookupSwitchLength, hpairs, bind, Except.bind, if_neg hcount]
  rfl

/-- A `tableswitch` is one instruction where it is aligned, whatever its padding holds. -/
theorem isInstructionAt_tableSwitch {offset : Nat} {filler : Bytes} {default low high : Int32}
    {targets : List Int32} (halign : Item.Aligns offset filler)
    (hcount : (targets.length : Int) = high.toInt - low.toInt + 1) :
    IsInstructionAt offset (Item.tableSwitch filler default low high targets).encode := by
  have hfiller := length_of_aligns halign
  intro rest
  let front := 0xaa :: filler ++ Item.signed default
  have hfront := length_switchFront 0xaa default halign
  have hlow := @signedAt_append offset _ _ low
    (Item.signed high ++ (targets.flatMap Item.signed ++ rest)) hfront
  have hhigh := @signedAt_append offset (1 + padding offset + 8) (front ++ Item.signed low) high
    (targets.flatMap Item.signed ++ rest)
    (by rw [List.length_append, hfront, Item.length_signed])
  rw [List.append_assoc] at hhigh
  have hcode : (Item.tableSwitch filler default low high targets).encode ++ rest =
      front ++ (Item.signed low ++ (Item.signed high ++ (targets.flatMap Item.signed ++ rest))) := by
    simp only [Item.encode, front, List.append_assoc]
  have hlength : (Item.tableSwitch filler default low high targets).encode.length =
      1 + padding offset + 12 + 4 * (high.toInt - low.toInt + 1).toNat := by
    simp only [Item.encode, List.length_append, List.length_cons, Item.length_signed, hfiller,
      length_flatMap_of_length Item.length_signed, ← hcount, Int.toNat_natCast]
    omega
  refine lengthAt_eq_ok_iff.2 ⟨?_, by rw [List.length_append]; omega⟩
  rw [hlength, ← tableSwitchLength_eq hlow hhigh (by omega), hcode]
  rfl

/-- A `lookupswitch` is one instruction where it is aligned, whatever its padding holds. -/
theorem isInstructionAt_lookupSwitch {offset : Nat} {filler : Bytes} {default : Int32}
    {pairs : List (Int32 × Int32)} (halign : Item.Aligns offset filler)
    (hcount : pairs.length < 2147483648) :
    IsInstructionAt offset (Item.lookupSwitch filler default pairs).encode := by
  have hfiller := length_of_aligns halign
  intro rest
  let octets := pairs.flatMap fun pair => Item.signed pair.1 ++ Item.signed pair.2
  let front := 0xab :: filler ++ Item.signed default
  have hfront := length_switchFront 0xab default halign
  have hpairs := @signedAt_append offset _ _ (Int32.ofNat pairs.length) (octets ++ rest) hfront
  rw [Int32.toInt_ofNat_of_lt hcount] at hpairs
  have hcode : (Item.lookupSwitch filler default pairs).encode ++ rest =
      front ++ (Item.signed (Int32.ofNat pairs.length) ++ (octets ++ rest)) := by
    simp only [Item.encode, front, octets, List.append_assoc]
  have hlength : (Item.lookupSwitch filler default pairs).encode.length =
      1 + padding offset + 8 + 8 * (pairs.length : Int).toNat := by
    have hpair : ∀ pair : Int32 × Int32, (Item.signed pair.1 ++ Item.signed pair.2).length = 8 :=
      fun _ => rfl
    simp only [Item.encode, List.length_append, List.length_cons, Item.length_signed, hfiller,
      length_flatMap_of_length hpair, Int.toNat_natCast]
    omega
  refine lengthAt_eq_ok_iff.2 ⟨?_, by rw [List.length_append]; omega⟩
  rw [hlength, ← lookupSwitchLength_eq hpairs (Int.natCast_nonneg _), hcode]
  rfl

/-! ## Cutting -/

/-- An instruction that can stand at an offset is found there with all its octets. -/
theorem isInstructionAt_of_standsAt {offset : Nat} {item : Item} (h : item.StandsAt offset) :
    IsInstructionAt offset item.encode := by
  cases item with
  | fixed opcode operands => exact isInstruction_of_hasOperands h offset
  | wide opcode index =>
    have hopcode : opcode ≠ 0x84 := by
      rintro rfl
      exact not_takesIndex_iinc h
    exact isInstruction_wide hopcode offset
  | wideIncrement index amount => exact isInstruction_wideIncrement _ _ _ _ offset
  | tableSwitch filler default low high targets =>
    exact isInstructionAt_tableSwitch h.1 h.2.2
  | lookupSwitch filler default pairs => exact isInstructionAt_lookupSwitch h.1 h.2

theorem splitAfter_layout {offset : Nat} {items : List Item} (h : LaidOut offset items) :
    splitAfter [] offset (items.flatMap Item.encode) = .ok (items.map Item.encode) := by
  induction items generalizing offset with
  | nil => exact splitAfter_nil [] offset
  | cons item items ih =>
    rw [List.flatMap_cons, splitAfter_append (isInstructionAt_of_standsAt h.1), ih h.2]
    rfl

/-- Code laid out from instructions is cut into these instructions, each with its octets. -/
theorem split_layout {items : List Item} (h : LaidOut 0 items) :
    (split (items.flatMap Item.encode)).map (·.map Instruction.raw) =
      .ok (items.map fun item => .raw item.encode) := by
  rw [split, splitAfter_layout h, Except.map, List.map_map]
  rfl

/-- Every kind of instruction: a switch whose padding is not zero and whose keys start below zero,
one without pairs, both forms of `wide`, and an opcode as an operand. -/
def sampleItems : List Item := [
  .fixed 0x03 [],
  .tableSwitch [0xaa, 0xff] 20 (-1) 1 [20, 24, -28],
  .wide 0x15 0x0100,
  .lookupSwitch [1, 2, 3] (-4) [],
  .wideIncrement 0x84 0xffff,
  .fixed 0xb9 [0xc4, 0xaa, 1, 0],
  .lookupSwitch [] 12 [(-2147483648, 12), (5, 40)],
  .fixed 0xb1 []]

theorem split_layout_sample :
    LaidOut 0 sampleItems ∧
      (split (sampleItems.flatMap Item.encode)).map (·.map Instruction.raw) =
        .ok (sampleItems.map fun item => .raw item.encode) :=
  ⟨by decide +kernel, split_layout (by decide +kernel)⟩

end Bytecode

end PlatformLink
