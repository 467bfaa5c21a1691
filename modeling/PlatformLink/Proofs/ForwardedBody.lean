import PlatformLink.Proofs.DescriptorGrammar
import PlatformLink.Proofs.ForwardingSpec
import PlatformLink.Proofs.ReadAfterWrite

/-! # The body of a forwarded method

The frame that the writer computes for a forwarding body (`Forwarding.compute_instructions`), the
octets of its instructions (`Forwarding.LoadOctets`, `Forwarding.isEncoded_instructions`), and that
these are cut into the same instructions again (`Forwarding.rereadable_instructions`).
-/

namespace PlatformLink
set_option autoImplicit false

/-! ## Parameters of descriptors -/

theorem JvmType.isVoid_of_kind {type : JvmType} (h : type.kind = .none) : type.isVoid = true := by
  obtain ⟨dimensions, element⟩ := type
  cases dimensions with
  | succ n => cases h
  | zero =>
    cases element with
    | primitive type => cases type <;> cases h
    | void => rfl
    | object name => cases h

/-- No parameter of a descriptor is held in no slot at all. -/
theorem MethodDescriptor.kind_ne_none {text : String} {d : MethodDescriptor}
    (h : ofString text = .ok d) : ∀ type ∈ d.parameters, type.kind ≠ .none := by
  intro type hmem hkind
  have hvoid := ((ofString_eq_ok_iff.1 h).1.parameters type hmem).2
  rw [JvmType.isVoid_of_kind hkind] at hvoid
  cases hvoid

theorem JvmType.length_le_flatMap_render (types : List JvmType) :
    types.length ≤ (types.flatMap JvmType.render).length := by
  induction types with
  | nil => simp
  | cons type types ih =>
    obtain ⟨c, cs, hrender, -⟩ := type.exists_render_eq
    rw [List.flatMap_cons, hrender, List.length_append, List.length_cons, List.length_cons]
    omega

theorem MethodDescriptor.length_parameters_le {text : String} {d : MethodDescriptor}
    (h : ofString text = .ok d) : d.parameters.length ≤ text.toList.length := by
  have hle := JvmType.length_le_flatMap_render d.parameters
  rw [(ofString_eq_ok_iff.1 h).2, MethodDescriptor.render, List.length_cons, List.length_append]
  omega

namespace Forwarding

open JvmType (totalSlots)

/-! ## The frame -/

section Frame

open PlatformLink.Frame

theorem toNat_slots (kind : ValueKind) : (UInt16.ofNat kind.slots).toNat = kind.slots := by
  cases kind <;> rfl

theorem variableSlots_loadOpcode {kind : ValueKind} (h : kind ≠ .none) :
    variableSlots kind.loadOpcode = UInt16.ofNat kind.slots := by
  cases kind with
  | none => exact absurd rfl h
  | _ => rfl

theorem plainEffect?_returnOpcode (kind : ValueKind) :
    plainEffect? kind.returnOpcode = some ⟨UInt16.ofNat kind.slots, 0⟩ := by
  cases kind <;> rfl

/-- The effects of the loads of values of some types. -/
def loadEffects (types : List JvmType) : List Effect :=
  types.map fun type => ⟨0, UInt16.ofNat type.kind.slots⟩

/-- The effects of a forwarding body: its loads, the call and the return. -/
def effects (d : MethodDescriptor) : List Effect :=
  loadEffects d.parameters ++ [⟨d.slotSum, UInt16.ofNat d.returnType.kind.slots⟩,
    ⟨UInt16.ofNat d.returnType.kind.slots, 0⟩]

theorem mapM_effect_loads (m : Method) (slot : Nat) {types : List JvmType}
    (h : ∀ type ∈ types, type.kind ≠ .none) :
    (loads slot types).mapM (effect m) = .ok (loadEffects types) := by
  induction types generalizing slot with
  | nil => rfl
  | cons type types ih =>
    obtain ⟨hkind, h⟩ := List.forall_mem_cons.1 h
    rw [loads_cons, List.mapM_cons, ih _ h]
    simp only [effect, variableSlots_loadOpcode hkind]
    rfl

/-- Loads only add to the stack, so the depth that they leave is the greatest so far. -/
theorem run_loads {types : List JvmType} {d : Depth} (hgreatest : d.greatest = d.current)
    (hlow : 0 ≤ d.current.toInt) (hfit : d.current.toInt + totalSlots types ≤ 65535) :
    (Depth.run d (loadEffects types)).greatest = (Depth.run d (loadEffects types)).current ∧
      (Depth.run d (loadEffects types)).current.toInt = d.current.toInt + totalSlots types := by
  induction types generalizing d with
  | nil => exact ⟨hgreatest, by simp [Depth.run, loadEffects, totalSlots]⟩
  | cons type types ih =>
    simp only [totalSlots, List.foldr_cons] at hfit
    have hslots := toNat_slots type.kind
    have hzero : (0 : UInt16).toNat = 0 := rfl
    have hcurrent : (d.step ⟨0, UInt16.ofNat type.kind.slots⟩).current.toInt =
        d.current.toInt + type.kind.slots := by
      rw [Depth.toInt_step_current] <;> simp only [hslots, hzero] <;> omega
    have hstep : (d.step ⟨0, UInt16.ofNat type.kind.slots⟩).greatest =
        (d.step ⟨0, UInt16.ofNat type.kind.slots⟩).current := by
      rw [← Int32.toInt_inj, Depth.toInt_step_greatest, hgreatest, hcurrent]
      omega
    have hrest := ih hstep (by omega) (by simp only [hcurrent, totalSlots]; omega)
    rw [hcurrent] at hrest
    simpa only [Depth.run, loadEffects, List.map_cons, List.foldl_cons, totalSlots,
      List.foldr_cons, Int.natCast_add, Int.add_assoc] using hrest

theorem localsOf_loads {types : List JvmType} {slot : Nat} {n : UInt16}
    (h : ∀ type ∈ types, type.kind ≠ .none) (hn : slot + totalSlots types ≤ n.toNat)
    (more : List Instruction) : localsOf n (loads slot types ++ more) = localsOf n more := by
  induction types generalizing slot with
  | nil => rfl
  | cons type types ih =>
    obtain ⟨hkind, h⟩ := List.forall_mem_cons.1 h
    simp only [totalSlots, List.foldr_cons] at hn
    have hlast := n.toNat_lt
    have hneeded : variablesNeeded (.variable type.kind.loadOpcode (UInt16.ofNat slot)) =
        UInt16.ofNat (slot + type.kind.slots) := by
      rw [variablesNeeded, variableSlots_loadOpcode hkind, UInt16.ofNat_add]
    have hmax : max n (UInt16.ofNat (slot + type.kind.slots)) = n := by
      rw [← UInt16.toNat_inj, UInt16.toNat_max, toNat_ofNat16 (by omega)]
      omega
    have hrest := @ih (slot + type.kind.slots) h (by simp only [totalSlots]; omega)
    rw [loads_cons]
    simp only [localsOf, List.cons_append, List.foldl_cons, hneeded, hmax] at hrest ⊢
    exact hrest

/-- The depth is greatest when all parameters are on the stack, or else with the result there. -/
theorem greatest_run_forwarding {d : MethodDescriptor} (hslots : totalSlots d.parameters ≤ 65535) :
    (Depth.run ⟨0, 0⟩ (effects d)).greatest.toInt =
      max (totalSlots d.parameters) d.returnType.kind.slots := by
  have hstart : (0 : Int32).toInt = 0 := rfl
  have hzero : (0 : UInt16).toNat = 0 := rfl
  obtain ⟨hgreatest, hcurrent⟩ := @run_loads d.parameters ⟨0, 0⟩ rfl (by decide)
    (by rw [hstart]; omega)
  have hsum : d.slotSum.toNat = totalSlots d.parameters := MethodDescriptor.parameterSlots_eq hslots
  have hresult := toNat_slots d.returnType.kind
  have hle := d.returnType.kind.slots_le
  simp only [Depth.run, effects, List.foldl_append, List.foldl_cons, List.foldl_nil]
    at hgreatest hcurrent ⊢
  generalize List.foldl Depth.step _ _ = loaded at hgreatest hcurrent ⊢
  rw [hstart] at hcurrent
  have hcalled : (loaded.step ⟨d.slotSum, UInt16.ofNat d.returnType.kind.slots⟩).current.toInt =
      d.returnType.kind.slots := by
    rw [Depth.toInt_step_current] <;> simp only [hresult, hsum, hcurrent] <;> omega
  have hreturned : ((loaded.step ⟨d.slotSum, UInt16.ofNat d.returnType.kind.slots⟩).step
      ⟨UInt16.ofNat d.returnType.kind.slots, 0⟩).current.toInt = 0 := by
    rw [Depth.toInt_step_current] <;> simp only [hresult, hzero, hcalled] <;> omega
  rw [Depth.toInt_step_greatest, Depth.toInt_step_greatest, hreturned, hcalled, hgreatest, hcurrent]
  omega

/-- The frame of a forwarding body: room for the parameters on the stack or the result, and for
the parameters in local variables. -/
theorem compute_instructions {m : Method} {d : MethodDescriptor} (target : String)
    (hd : MethodDescriptor.ofString m.descriptor = .ok d) (hstatic : m.isStatic = true)
    (hslots : totalSlots d.parameters ≤ 65535) :
    Frame.compute m (instructions target m d) =
      .ok ⟨UInt16.ofNat (max (totalSlots d.parameters) d.returnType.kind.slots),
        UInt16.ofNat (totalSlots d.parameters)⟩ := by
  have hkinds := MethodDescriptor.kind_ne_none hd
  have hcall : effect m (.invoke 0xb8 target m.name m.descriptor false) =
      .ok ⟨d.slotSum, UInt16.ofNat d.returnType.kind.slots⟩ := by
    simp [effect, hd, Except.map, callEffect]
  have hreturn : effect m (.plain d.returnType.kind.returnOpcode) =
      .ok ⟨UInt16.ofNat d.returnType.kind.slots, 0⟩ := by
    simp [effect, plainEffect?_returnOpcode]
  have heffects : (instructions target m d).mapM (effect m) = .ok (effects d) := by
    rw [instructions, List.mapM_append, mapM_effect_loads m 0 hkinds]
    simp only [List.mapM_cons, List.mapM_nil, hcall, hreturn]
    rfl
  have hgreatest := greatest_run_forwarding hslots
  have hle := d.returnType.kind.slots_le
  have hstack : UInt16.ofInt (max (totalSlots d.parameters) d.returnType.kind.slots : Nat) =
      UInt16.ofNat (max (totalSlots d.parameters) d.returnType.kind.slots) := by
    rw [← UInt16.toNat_inj, toNat_ofInt16 (by omega) (by omega), toNat_ofNat16 (by omega)]
    omega
  have hlocals : localsOf d.slotSum (instructions target m d) =
      UInt16.ofNat (totalSlots d.parameters) := by
    rw [instructions, MethodDescriptor.slotSum_eq, localsOf_loads hkinds]
    · simp only [localsOf, List.foldl_cons, List.foldl_nil, variablesNeeded]
      rw [← UInt16.toNat_inj, UInt16.toNat_max, UInt16.toNat_max, UInt16.toNat_zero]
      omega
    · rw [toNat_ofNat16 hslots]
      omega
  simp only [compute, hd, bind, Except.bind, heffects, hgreatest, hstack, hstatic, if_true,
    UInt16.add_zero, hlocals, pure, Except.pure]

end Frame

/-! ## The octets -/

/-- `parts` are the loads of values of the types one after another, from the first slot on. -/
structure LoadOctets (types : List JvmType) (parts : List Bytes) : Prop where
  length : parts.length = types.length
  load : ∀ (i : Nat) (type : JvmType), types[i]? = some type → parts[i]? =
    some (Instruction.loadOctets type.kind.loadOpcode (totalSlots (types.take i)))

theorem getElem?_of_isEncoded_loads {pool : ConstantPool} {slot : Nat} {types : List JvmType}
    {parts : List Bytes} (hslots : slot + totalSlots types ≤ 65535)
    (h : List.Forall₂ (fun i part => Instruction.IsEncoded pool i part) (loads slot types) parts)
    (i : Nat) : parts[i]? = types[i]?.map fun type =>
      Instruction.loadOctets type.kind.loadOpcode (slot + totalSlots (types.take i)) := by
  induction types generalizing slot parts i with
  | nil =>
    cases h
    simp
  | cons type types ih =>
    simp only [totalSlots, List.foldr_cons] at hslots
    rw [loads_cons] at h
    cases h with
    | @cons _ part _ parts hpart hparts =>
      cases i with
      | zero =>
        have hload := Instruction.encodeVariable_eq_loadOctets type.kind
          (show slot ≤ 65535 by omega)
        have hpart : part = Instruction.encodeVariable type.kind.loadOpcode (UInt16.ofNat slot) := hpart
        simp [totalSlots, hpart, hload]
      | succ i =>
        have hrest := ih (by simp only [totalSlots]; omega) hparts i
        simpa only [List.getElem?_cons_succ, List.take_succ_cons, totalSlots, List.foldr_cons,
          Nat.add_assoc] using hrest

theorem loadOctets_of_isEncoded {pool : ConstantPool} {types : List JvmType} {parts : List Bytes}
    (hslots : totalSlots types ≤ 65535)
    (h : List.Forall₂ (fun i part => Instruction.IsEncoded pool i part) (loads 0 types) parts) :
    LoadOctets types parts := by
  refine ⟨?_, fun i type hi => ?_⟩
  · rw [← h.length_eq, length_loads]
  · rw [getElem?_of_isEncoded_loads (by omega) h, hi, Option.map_some, Nat.zero_add]

theorem isEncoded_instructions {pool : ConstantPool} {target : String} {m : Method}
    {d : MethodDescriptor} {parts : List Bytes} (hslots : totalSlots d.parameters ≤ 65535)
    (h : List.Forall₂ (fun i part => Instruction.IsEncoded pool i part) (instructions target m d)
      parts) :
    ∃ loads index, LoadOctets d.parameters loads ∧
      pool.IsFirstMethod index target m.name m.descriptor false ∧
        parts = loads ++ [0xb8 :: be16 index, [d.returnType.kind.returnOpcode]] := by
  obtain ⟨loads, rest, rfl, hloads, hrest⟩ := forall₂_append_left h
  simp only [List.forall₂_cons_left_iff, List.forall₂_nil_left_iff] at hrest
  obtain ⟨_, _, ⟨index, hindex, operands, hoperands, rfl⟩, ⟨_, _, rfl, rfl, rfl⟩, rfl⟩ := hrest
  have hempty : [] = operands := Except.ok.inj hoperands
  refine ⟨loads, index, loadOctets_of_isEncoded hslots hloads, hindex, ?_⟩
  rw [← hempty, List.append_nil]

theorem isForwarding_instructions (target : String) (m : Method) (d : MethodDescriptor) :
    ∀ i ∈ instructions target m d, i.IsForwarding := by
  have hloads (slot : Nat) (types : List JvmType) : ∀ i ∈ loads slot types, i.IsForwarding := by
    induction types generalizing slot with
    | nil => simp
    | cons type types ih =>
      rw [loads_cons, List.forall_mem_cons]
      exact ⟨.load _ _, ih _⟩
  simp only [instructions, List.forall_mem_append, List.forall_mem_cons]
  exact ⟨hloads 0 d.parameters, .call _ _ _, .done _, by simp⟩

/-- A forwarding body can be read back: each of its instructions is found again, and there are no
more of them than a descriptor has letters. -/
theorem rereadable_instructions {pool : ConstantPool} {m m' : Method} {d : MethodDescriptor}
    (target : String) (hd : MethodDescriptor.ofString m.descriptor = .ok d)
    (hfits : ModifiedUtf8.Fits m.descriptor) :
    Body.Rereadable pool m' ⟨none, instructions target m d, [], []⟩ := by
  intro pool' frame parts hle hframe hparts
  have hfound := forall_mem_of_forall₂ hparts
    (fun i part he hi => Instruction.IsForwarding.isInstruction hi he)
    (isForwarding_instructions target m d)
  have hsplit := Bytecode.split_flatten fun part hpart => (hfound part hpart).1
  have hlength := length_flatten_le fun part hpart => (hfound part hpart).2
  have hcount : parts.length = d.parameters.length + 2 := by
    rw [← hparts.length_eq, instructions, List.length_append, length_loads]
    rfl
  -- an instruction takes four octets at most, and a descriptor has a letter for every parameter
  have hparameters := MethodDescriptor.length_parameters_le hd
  have htext := ModifiedUtf8.length_toList_le_length_encode m.descriptor
  unfold ModifiedUtf8.Fits at hfits
  refine ⟨⟨rfl, rfl, hsplit, by omega, by simp [Body.reread], ?_, by simp [Body.reread]⟩, ?_⟩
  · simp [Body.reread, Attribute.AllFit]
  · simp only [Method.bodyPayload, Attribute.encodeAll, List.length_append, be16_length,
      count32_length, count16_length, List.flatMap_nil, List.length_nil]
    omega

end Forwarding

end PlatformLink
