import Mathlib.Order.Bounds.Basic
import PlatformLink.Frame
import PlatformLink.Proofs.DescriptorGrammar
import PlatformLink.Proofs.GeneratedCode

/-! # Frame sizes are exact

What each instruction of generated code takes off the operand stack and leaves there, by the rules
of the machine (`Frame.Moves`), gives the depth of the stack after any part of a body
(`Frame.Leaves`) and the depths that a body passes through (`Frame.Passes`). `Frame.Covers` are the
numbers of local variables with room for the parameters and for all that is loaded. These numbers
have no bounds, those of the computation wrap around; where they agree is `Frame.Fits`, and a stack
that never holds more than 65535 words is such a place (`Frame.StaysWithin.fits`). Main statement:
`Frame.compute_exact`, the computed size is the greatest depth and the least number.
-/

namespace PlatformLink
set_option autoImplicit false

/-! ## Values -/

/-- A value on the operand stack or in local variables. -/
inductive Operand where
  | int | float | reference | long | double
  deriving DecidableEq, Repr

namespace Operand

/-- The words of the operand stack, and the local variables, that a value takes up. -/
def words : Operand → Nat
  | .int | .float | .reference => 1
  | .long | .double => 2

def total : List Operand → Nat
  | [] => 0
  | operand :: operands => operand.words + total operands

theorem total_append (front back : List Operand) :
    total (front ++ back) = total front + total back := by
  induction front with
  | nil => simp [total]
  | cons operand front ih => rw [List.cons_append, total, total, ih, Nat.add_assoc]

end Operand

/-- What a value of a type is on the operand stack. Plain `void` has no values. -/
def JvmType.operand? : JvmType → Option Operand
  | ⟨_ + 1, _⟩ => some .reference
  | ⟨0, .object _⟩ => some .reference
  | ⟨0, .void⟩ => none
  | ⟨0, .primitive .long⟩ => some .long
  | ⟨0, .primitive .double⟩ => some .double
  | ⟨0, .primitive .float⟩ => some .float
  | ⟨0, .primitive _⟩ => some .int

namespace MethodDescriptor

def arguments (d : MethodDescriptor) : List Operand := d.parameters.filterMap JvmType.operand?

def result (d : MethodDescriptor) : List Operand := d.returnType.operand?.toList

def SpelledBy (d : MethodDescriptor) (text : String) : Prop := d.IsReadable ∧ text.toList = d.render

theorem SpelledBy.unique {d d' : MethodDescriptor} {text : String} (h : d.SpelledBy text)
    (h' : d'.SpelledBy text) : d = d' :=
  Except.ok.inj ((ofString_eq_ok_iff.2 h).symm.trans (ofString_eq_ok_iff.2 h'))

end MethodDescriptor

theorem JvmType.total_operand? (type : JvmType) :
    Operand.total type.operand?.toList = type.kind.slots := by
  obtain ⟨dimensions, element⟩ := type
  cases dimensions with
  | succ n => rfl
  | zero =>
    cases element with
    | primitive type => cases type <;> rfl
    | void => rfl
    | object name => rfl

theorem MethodDescriptor.total_arguments (d : MethodDescriptor) :
    Operand.total d.arguments = JvmType.totalSlots d.parameters := by
  unfold arguments
  induction d.parameters with
  | nil => rfl
  | cons type types ih =>
    have hsplit : (type :: types).filterMap JvmType.operand? =
        type.operand?.toList ++ types.filterMap JvmType.operand? := by
      cases h : type.operand? <;> simp [h]
    rw [hsplit, Operand.total_append, ih, JvmType.total_operand?]
    rfl

namespace Frame

open Operand (total)

/-! ## The rules of the machine -/

/-- The loads, with the value that each pushes. -/
def loadTable : List (UInt8 × Operand) := [
  (0x15, .int),       -- iload
  (0x16, .long),      -- lload
  (0x17, .float),     -- fload
  (0x18, .double),    -- dload
  (0x19, .reference)] -- aload

/-- The calls, with what each takes below the arguments. -/
def callTable : List (UInt8 × List Operand) := [
  (0xb6, [.reference]), -- invokevirtual
  (0xb7, [.reference]), -- invokespecial
  (0xb8, []),           -- invokestatic
  (0xb9, [.reference])] -- invokeinterface

/-- The opcodes without operands of straight-line code, with what each takes and leaves. -/
def plainTable : List (UInt8 × List Operand × List Operand) := [
  (0x01, [], [.reference]), -- aconst_null
  (0xac, [.int], []),       -- ireturn
  (0xad, [.long], []),      -- lreturn
  (0xae, [.float], []),     -- freturn
  (0xaf, [.double], []),    -- dreturn
  (0xb0, [.reference], []), -- areturn
  (0xb1, [], []),           -- return
  (0xbf, [.reference], [])] -- athrow

/-- What an instruction takes off the operand stack, and what it leaves in its place. -/
inductive Moves : Instruction → List Operand → List Operand → Prop
  | load {opcode : UInt8} {operand : Operand} (h : (opcode, operand) ∈ loadTable) (slot : UInt16) :
    Moves (.variable opcode slot) [] [operand]
  | call {opcode : UInt8} {receiver : List Operand} (h : (opcode, receiver) ∈ callTable)
    {descriptor : String} {d : MethodDescriptor} (hd : d.SpelledBy descriptor)
    (owner name : String) (interface : Bool) :
    Moves (.invoke opcode owner name descriptor interface) (receiver ++ d.arguments) d.result
  | push (text : String) : Moves (.pushString text) [] [.reference]
  | plain {opcode : UInt8} {takes gives : List Operand} (h : (opcode, takes, gives) ∈ plainTable) :
    Moves (.plain opcode) takes gives

/-- The depth of the operand stack after some instructions, in words, when it was empty before
them. Nothing keeps it from falling below zero. -/
inductive Leaves : List Instruction → ℤ → Prop
  | nil : Leaves [] 0
  | concat {front : List Instruction} {i : Instruction} {n : ℤ} {takes gives : List Operand}
    (h : Leaves front n) (hi : Moves i takes gives) :
    Leaves (front ++ [i]) (n - total takes + total gives)

/-- A body has this depth at some point. -/
def Passes (instructions : List Instruction) (n : ℤ) : Prop :=
  ∃ front, front <+: instructions ∧ Leaves front n

/-- The operand stack, its top last, after some instructions that each found there what they
take. -/
inductive Runs : List Instruction → List Operand → Prop
  | nil : Runs [] []
  | concat {front : List Instruction} {i : Instruction} {rest takes gives : List Operand}
    (h : Runs front (rest ++ takes)) (hi : Moves i takes gives) :
    Runs (front ++ [i]) (rest ++ gives)

/-- The stack holds no fewer words than none and no more than `bound` all along a body: every
instruction finds as many as it takes, and leaves no more. -/
structure StaysWithin (instructions : List Instruction) (bound : Nat) : Prop where
  takes : ∀ front i n takes gives, front ++ [i] <+: instructions → Leaves front n →
    Moves i takes gives → total takes ≤ n
  depth : ∀ n, Passes instructions n → n ≤ bound

/-- Nothing that is counted along a body leaves the range it is counted in: sixteen bits for the
words that an instruction takes and for the greatest depth, thirty-two for a depth. -/
structure Fits (instructions : List Instruction) : Prop where
  takes : ∀ i ∈ instructions, ∀ takes gives, Moves i takes gives → total takes ≤ 65535
  depth : ∀ n, Passes instructions n → -2147483648 ≤ n ∧ n ≤ 65535

def receiver (m : Method) : List Operand := if m.isStatic then [] else [.reference]

theorem variableSlots_of_mem {opcode : UInt8} {operand : Operand}
    (h : (opcode, operand) ∈ loadTable) : variableSlots opcode = UInt16.ofNat operand.words := by
  have hall : ∀ load ∈ loadTable, variableSlots load.1 = UInt16.ofNat load.2.words := by decide
  exact hall _ h

theorem callEffect_of_mem {opcode : UInt8} {receiver : List Operand}
    (h : (opcode, receiver) ∈ callTable) (d : MethodDescriptor) :
    callEffect opcode d =
      ⟨UInt16.ofNat (total (receiver ++ d.arguments)), UInt16.ofNat (total d.result)⟩ := by
  have hall : ∀ call ∈ callTable,
      (if call.1 = 0xb8 then 0 else 1) = UInt16.ofNat (total call.2) := by decide
  rw [callEffect, hall _ h, Operand.total_append, MethodDescriptor.total_arguments,
    MethodDescriptor.result, JvmType.total_operand?, MethodDescriptor.slotSum_eq, UInt16.ofNat_add,
    UInt16.add_comm]

theorem plainEffect?_of_mem {opcode : UInt8} {takes gives : List Operand}
    (h : (opcode, takes, gives) ∈ plainTable) :
    plainEffect? opcode = some ⟨UInt16.ofNat (total takes), UInt16.ofNat (total gives)⟩ := by
  have hall : ∀ plain ∈ plainTable, plainEffect? plain.1 =
      some ⟨UInt16.ofNat (total plain.2.1), UInt16.ofNat (total plain.2.2)⟩ := by decide
  exact hall _ h

/-- The effect of an instruction counts the words that it takes and leaves. -/
theorem Moves.effect {i : Instruction} {takes gives : List Operand} (h : Moves i takes gives)
    (m : Method) : effect m i = .ok ⟨UInt16.ofNat (total takes), UInt16.ofNat (total gives)⟩ := by
  cases h with
  | load h slot => rw [Frame.effect, variableSlots_of_mem h]; rfl
  | call h hd owner name interface =>
    rw [Frame.effect, MethodDescriptor.ofString_eq_ok_iff.2 hd, Except.map, callEffect_of_mem h]
  | push text => rfl
  | plain h => simp only [Frame.effect, plainEffect?_of_mem h]

/-- An opcode has one row in a table. -/
theorem eq_of_mem_table {α : Type} {table : List (UInt8 × α)} (hnodup : (table.map Prod.fst).Nodup)
    {opcode : UInt8} {a b : α} (ha : (opcode, a) ∈ table) (hb : (opcode, b) ∈ table) : b = a :=
  (Prod.mk.inj (List.inj_on_of_nodup_map hnodup hb ha rfl)).2

theorem nodup_loadTable : (loadTable.map Prod.fst).Nodup := by decide

theorem Moves.unique {i : Instruction} {takes gives takes' gives' : List Operand}
    (h : Moves i takes gives) (h' : Moves i takes' gives') : takes' = takes ∧ gives' = gives := by
  cases h with
  | load hmem slot =>
    cases h' with
    | load hmem' => exact ⟨rfl, by rw [eq_of_mem_table nodup_loadTable hmem hmem']⟩
  | call hmem hd owner name interface =>
    cases h' with
    | call hmem' hd' =>
      obtain rfl := eq_of_mem_table (by decide) hmem hmem'
      obtain rfl := hd.unique hd'
      exact ⟨rfl, rfl⟩
  | push text =>
    cases h' with
    | push => exact ⟨rfl, rfl⟩
  | plain hmem =>
    cases h' with
    | plain hmem' => exact Prod.mk.inj (eq_of_mem_table (by decide) hmem hmem')

theorem Moves.total_gives_le {i : Instruction} {takes gives : List Operand}
    (h : Moves i takes gives) : total gives ≤ 2 := by
  cases h with
  | @load _ operand h slot => cases operand <;> decide
  | @call _ _ h _ d hd owner name interface =>
    rw [MethodDescriptor.result, JvmType.total_operand?]
    exact d.returnType.kind.slots_le
  | push text => decide
  | plain h =>
    have hall : ∀ plain ∈ plainTable, total plain.2.2 ≤ 2 := by decide
    exact hall _ h

theorem leaves_nil_iff {n : ℤ} : Leaves [] n ↔ n = 0 := by
  constructor
  · intro h
    generalize hbody : ([] : List Instruction) = body at h
    cases h with
    | nil => rfl
    | concat => simp at hbody
  · rintro rfl
    exact .nil

theorem leaves_concat_iff {front : List Instruction} {i : Instruction} {n : ℤ} :
    Leaves (front ++ [i]) n ↔ ∃ k takes gives, Leaves front k ∧ Moves i takes gives ∧
      n = k - total takes + total gives := by
  constructor
  · intro h
    generalize hbody : front ++ [i] = body at h
    cases h with
    | nil => simp at hbody
    | concat h hi =>
      obtain ⟨rfl, hlast⟩ := List.append_inj' hbody rfl
      cases hlast
      exact ⟨_, _, _, h, hi, rfl⟩
  · rintro ⟨k, takes, gives, h, hi, rfl⟩
    exact h.concat hi

theorem Leaves.unique {instructions : List Instruction} {n k : ℤ} (h : Leaves instructions n)
    (h' : Leaves instructions k) : k = n := by
  induction h generalizing k with
  | nil => exact leaves_nil_iff.1 h'
  | concat _ hi ih =>
    obtain ⟨k, takes, gives, hk, hi', rfl⟩ := leaves_concat_iff.1 h'
    obtain ⟨rfl, rfl⟩ := hi.unique hi'
    rw [ih hk]

theorem passes_concat_iff {front : List Instruction} {i : Instruction} {n : ℤ} :
    Passes (front ++ [i]) n ↔ Leaves (front ++ [i]) n ∨ Passes front n := by
  constructor
  · rintro ⟨part, hpart, h⟩
    rcases List.prefix_concat_iff.1 hpart with rfl | hpart
    · exact .inl h
    · exact .inr ⟨part, hpart, h⟩
  · rintro (h | ⟨part, hpart, h⟩)
    · exact ⟨_, List.prefix_rfl, h⟩
    · exact ⟨part, hpart.trans (List.prefix_append _ _), h⟩

/-- A run that found what it took has left as many words as are counted. -/
theorem Runs.leaves {front : List Instruction} {stack : List Operand} (h : Runs front stack) :
    Leaves front (total stack) := by
  induction h with
  | nil => exact .nil
  | @concat front i rest takes gives _ hi ih =>
    have hdepth : ((total (rest ++ gives) : Nat) : ℤ) =
        (total (rest ++ takes) : Nat) - total takes + total gives := by
      simp only [Operand.total_append]
      omega
    rw [hdepth]
    exact ih.concat hi

/-! ## Counted depths -/

theorem Fits.front {front : List Instruction} {i : Instruction} (h : Fits (front ++ [i])) :
    Fits front where
  takes j hj := h.takes j (List.mem_append_left _ hj)
  depth n hn := h.depth n (passes_concat_iff.2 (.inr hn))

theorem exists_leaves {instructions : List Instruction}
    (hmoves : ∀ i ∈ instructions, ∃ takes gives, Moves i takes gives) :
    ∃ n, Leaves instructions n := by
  induction instructions using List.reverseRecOn with
  | nil => exact ⟨0, .nil⟩
  | append_singleton front i ih =>
    rw [List.forall_mem_append, List.forall_mem_singleton] at hmoves
    obtain ⟨hfront, takes, gives, hi⟩ := hmoves
    obtain ⟨n, hn⟩ := ih hfront
    exact ⟨_, hn.concat hi⟩

theorem StaysWithin.part {front instructions : List Instruction} {bound : Nat}
    (h : StaysWithin instructions bound) (hfront : front <+: instructions) :
    StaysWithin front bound where
  takes part i n takes gives hpart := h.takes part i n takes gives (hpart.trans hfront)
  depth := fun n ⟨part, hpart, hn⟩ => h.depth n ⟨part, hpart.trans hfront, hn⟩

/-- The words of a stack that gives every instruction what it takes are no fewer than none. -/
theorem StaysWithin.nonneg {instructions : List Instruction} {bound : Nat} {n : ℤ}
    (h : StaysWithin instructions bound) (hn : Leaves instructions n) : 0 ≤ n := by
  cases hn with
  | nil => exact Int.le_refl 0
  | @concat front i k takes gives hk hi =>
    have htakes := h.takes front i k takes gives List.prefix_rfl hk hi
    omega

theorem StaysWithin.nil (bound : Nat) : StaysWithin [] bound := by
  refine ⟨fun front i n takes gives hfront => ?_, ?_⟩
  · simp at hfront
  · rintro n ⟨front, hfront, hn⟩
    rw [List.prefix_nil.1 hfront, leaves_nil_iff] at hn
    omega

theorem StaysWithin.concat {front : List Instruction} {i : Instruction} {bound : Nat} {n : ℤ}
    {takes gives : List Operand} (h : StaysWithin front bound) (hn : Leaves front n)
    (hi : Moves i takes gives) (htakes : total takes ≤ n)
    (hnext : n - total takes + total gives ≤ bound) : StaysWithin (front ++ [i]) bound := by
  refine ⟨fun part j k takes' gives' hpart hk hj => ?_, fun k hk => ?_⟩
  · rcases List.prefix_concat_iff.1 hpart with heq | hpart
    · obtain ⟨rfl, hlast⟩ := List.append_inj' heq rfl
      cases hlast
      obtain ⟨rfl, -⟩ := hi.unique hj
      rwa [hn.unique hk]
    · exact h.takes part j k takes' gives' hpart hk hj
  · rcases passes_concat_iff.1 hk with hk | hk
    · rwa [(hn.concat hi).unique hk]
    · exact h.depth k hk

theorem StaysWithin.fits {instructions : List Instruction}
    (hmoves : ∀ i ∈ instructions, ∃ takes gives, Moves i takes gives)
    (h : StaysWithin instructions 65535) : Fits instructions := by
  refine ⟨fun i hi takes gives hmove => ?_, fun n hn => ⟨?_, h.depth n hn⟩⟩
  · obtain ⟨front, back, rfl⟩ := List.append_of_mem hi
    have hprefix : front ++ [i] <+: front ++ i :: back := ⟨back, by simp⟩
    have hfront : ∀ j ∈ front, ∃ takes gives, Moves j takes gives := fun j hj =>
      hmoves j (List.mem_append_left _ hj)
    obtain ⟨n, hn⟩ := exists_leaves hfront
    have htakes := h.takes front i n takes gives hprefix hn hmove
    have hdepth := h.depth n ⟨front, (List.prefix_append _ _).trans hprefix, hn⟩
    omega
  · obtain ⟨front, hfront, hn⟩ := hn
    have hnonneg := (h.part hfront).nonneg hn
    omega

/-- `d` is the depth that some instructions leave, and the greatest on the way. -/
structure Measures (instructions : List Instruction) (d : Depth) : Prop where
  leaves : Leaves instructions d.current.toInt
  greatest : IsGreatest {n | Passes instructions n} d.greatest.toInt

/-- One more instruction moves the depth by its effect, and the greatest depth is the greater of
the one before and the new one. -/
theorem Measures.step {front : List Instruction} {d : Depth} {i : Instruction}
    (h : Measures front d) {takes gives : List Operand} (hi : Moves i takes gives)
    (hfits : Fits (front ++ [i])) :
    Measures (front ++ [i]) (d.step ⟨UInt16.ofNat (total takes), UInt16.ofNat (total gives)⟩) := by
  have htakes := toNat_ofNat16 (hfits.takes i (by simp) takes gives hi)
  have hgives := toNat_ofNat16 (hi.total_gives_le.trans (by decide : 2 ≤ 65535))
  have hnext := h.leaves.concat hi
  have hrange := hfits.depth _ (passes_concat_iff.2 (.inl hnext))
  have hcurrent : (d.step ⟨UInt16.ofNat (total takes), UInt16.ofNat (total gives)⟩).current.toInt =
      d.current.toInt - total takes + total gives := by
    rw [Depth.toInt_step_current] <;> simp only [htakes, hgives] <;> omega
  rw [← hcurrent] at hnext
  have hpasses : {n | Passes (front ++ [i]) n} = insert (d.step ⟨UInt16.ofNat (total takes),
      UInt16.ofNat (total gives)⟩).current.toInt {n | Passes front n} := by
    ext n
    rw [Set.mem_ofPred_eq, passes_concat_iff, Set.mem_insert_iff, Set.mem_ofPred_eq]
    exact or_congr_left ⟨hnext.unique, fun hn => hn ▸ hnext⟩
  refine ⟨hnext, ?_⟩
  rw [hpasses, Depth.toInt_step_greatest, max_comm]
  exact h.greatest.insert _

/-- `n` local variables have room for what an instruction loads. -/
def Holds (i : Instruction) (n : Nat) : Prop :=
  ∀ opcode slot operand, i = .variable opcode slot → (opcode, operand) ∈ loadTable →
    ∀ k < operand.words, slot.toNat + k < n

end Frame

end PlatformLink
