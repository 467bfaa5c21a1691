import PlatformLink.Proofs.ForwardingRoundTrip
import PlatformLink.Proofs.WritingOutcome

/-! # When an edited class can be written

Everything that writing computes can be computed for a class that was read and edited
(`Forwarding.computable_edit`): a method that was not acted on has a frame and its instructions as
octets, and a forwarding body has a frame. So such a class is written unless its pool has no room
for the constants that are not there yet: `Forwarding.write_edit_outcome`.
-/

namespace PlatformLink
set_option autoImplicit false

theorem Body.Readable.computable {pool : ConstantPool} {m : Method} {frame : FrameSize}
    {parts : List Bytes} {body : Body} (h : body.Readable pool frame parts) :
    body.Computable m := by
  refine ⟨⟨frame, by rw [Method.frameOf, h.frame]⟩, ?_⟩
  rw [h.instructions, List.forall_mem_map]
  exact fun _ _ => trivial

theorem Method.Attributed.computable {pool : ConstantPool} {m : Method}
    {attributes : List Attribute} (h : m.Attributed pool attributes) : m.Computable := by
  intro body hbody
  obtain ⟨_, -, _, _, hreadable, -⟩ := h.exists_readable hbody
  exact hreadable.computable

namespace Forwarding

theorem encodable_instructions (target : String) (m : Method) (d : MethodDescriptor) :
    ∀ i ∈ instructions target m d, i.Encodable := by
  intro i hi
  cases isForwarding_instructions target m d i hi with
  | load kind slot => trivial
  | call owner name descriptor => exact ⟨[], rfl⟩
  | done kind => trivial

theorem computable_forward {m : Method} {d : MethodDescriptor} (target : String)
    (hd : MethodDescriptor.ofString m.descriptor = .ok d) (hstatic : m.isStatic = true)
    (hslots : JvmType.totalSlots d.parameters ≤ 65535) : (forward target m d).Computable := by
  rintro body ⟨rfl⟩
  have hcompute := compute_instructions (m := forward target m d) target hd hstatic hslots
  exact ⟨⟨_, hcompute⟩, encodable_instructions target m d⟩

theorem computable_edit {octets : Bytes} {c : ClassFile} {p : Preferences} {s : Settings}
    {label : String} (hread : ClassFile.read octets = .ok c)
    (h : (edit p s label c).failure = none)
    (hslots : ∀ m ∈ c.methods, ActsOn s m → SlotsFit m) :
    (edit p s label c).classFile.Computable := by
  obtain ⟨l, -, hd⟩ := ClassFile.read_eq_ok_iff.1 hread
  obtain ⟨methods, hclass, hmethods⟩ := edit_methods h
  rw [hclass]
  have hcomputable : ∀ m ∈ c.methods, m.Computable :=
    forall_mem_right_of_forall₂ hd.methods fun _ _ hm => hm.attributes.computable
  have hall := (List.forall₂_and_left _ _).2 ⟨fun m hm => And.intro (hcomputable m hm) (hslots m hm),
    hmethods⟩
  refine forall_mem_right_of_forall₂ hall ?_
  -- a method that was acted on has a forwarding body, any other is as it was read
  rintro m m' ⟨⟨hm, hslots⟩, hedited⟩
  unfold Edited at hedited
  by_cases hacted : ActsOn s m
  · rw [if_pos hacted] at hedited
    obtain ⟨d, segment, hdescriptor, -, rfl⟩ := forward?_eq_ok hedited
    exact computable_forward _ hdescriptor hacted.2.2 (hslots hacted d hdescriptor)
  · rw [if_neg hacted] at hedited
    rwa [hedited]

/-- A class that was read and edited is written or does not fit its pool, and the latter exactly
when the slots of the pool and the constants that are missing from it are more than 65535. -/
theorem write_edit_outcome {octets : Bytes} {c : ClassFile} {p : Preferences} {s : Settings}
    {label : String} (hread : ClassFile.read octets = .ok c)
    (h : (edit p s label c).failure = none)
    (hslots : ∀ m ∈ c.methods, ActsOn s m → SlotsFit m) :
    let c' := (edit p s label c).classFile
    ((∃ octets', c'.write = .ok octets') ∨ c'.write = .error .poolOverflow) ∧
      ∃ missing, c'.finalLedger = Ledger.ofPool c'.pool ++ missing ∧ missing.Nodup ∧
        (∀ e ∈ missing, e ∉ Ledger.ofPool c'.pool) ∧
        (c'.write = .error .poolOverflow ↔ 65535 < c'.pool.slotCount + missing.length) := by
  intro c'
  have houtcome := (computable_edit hread h hslots).write_outcome
  obtain ⟨missing, hledger, hnodup, hmissing⟩ :=
    Ledger.grows_after c'.requests (Ledger.ofPool c'.pool)
  have hlength : c'.finalLedger.length + 1 = c'.pool.slotCount + missing.length := by
    rw [ClassFile.finalLedger, hledger, List.length_append, Ledger.length_ofPool]
    unfold ConstantPool.slotCount
    omega
  by_cases hroom : c'.finalLedger.length < 65535
  · rw [if_pos hroom] at houtcome
    obtain ⟨octets', hwrite⟩ := houtcome
    refine ⟨.inl ⟨octets', hwrite⟩, missing, hledger, hnodup, hmissing, ?_⟩
    rw [hwrite]
    simp only [reduceCtorEq, false_iff]
    omega
  · rw [if_neg hroom] at houtcome
    refine ⟨.inr houtcome, missing, hledger, hnodup, hmissing, ?_⟩
    rw [houtcome]
    simp only [true_iff]
    omega

theorem write_edit_outcome_sample :
    let c' := (edit .none (ofPlatform "quilt") "a/B" .sample).classFile
    ((∃ octets', c'.write = .ok octets') ∨ c'.write = .error .poolOverflow) ∧
      ∃ missing, c'.finalLedger = Ledger.ofPool c'.pool ++ missing ∧ missing.Nodup ∧
        (∀ e ∈ missing, e ∉ Ledger.ofPool c'.pool) ∧
        (c'.write = .error .poolOverflow ↔ 65535 < c'.pool.slotCount + missing.length) :=
  write_edit_outcome ClassFile.read_sample (by decide +kernel) (by decide +kernel)

end Forwarding

end PlatformLink
