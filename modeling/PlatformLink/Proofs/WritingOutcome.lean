import PlatformLink.Proofs.UnlimitedPool
import PlatformLink.Proofs.ReadAfterWrite

/-! # When a class can be written

Writing a class asks its pool for the texts, classes, strings and methods of `ClassFile.requests`,
in that order. When every frame and every operand can be computed (`ClassFile.Computable`) it asks
for nothing else and fails for nothing but a full pool: `ClassFile.needs_encodeMembers`. So a class
is written exactly when it is computable and there is room for what its pool does not hold yet
(`ClassFile.exists_write_iff`); whether its texts, lists and numbers fit the fields they are written
in is not looked at.
-/

namespace PlatformLink
set_option autoImplicit false

open Interning

/-! ## What is asked for -/

def Instruction.requests : Instruction → List Request
  | .invoke _ owner name descriptor interface => [.methodRef owner name descriptor interface]
  | .pushString text => [.string text]
  | .variable _ _ | .plain _ | .raw _ => []

def Body.requests (body : Body) : List Request :=
  .text bodyName :: body.instructions.flatMap Instruction.requests

def Annotations.requests (attributeName : String) (entries : List AnnotationEntry) : List Request :=
  .text attributeName :: entries.flatMap fun e => [.text e.descriptor]

namespace Method

def requestsAt (m : Method) : Place → List Request
  | .body => m.body.elim [] Body.requests
  | .visible => m.visible.elim [] (Annotations.requests visibleName)
  | .invisible => m.invisible.elim [] (Annotations.requests invisibleName)
  | .other _ => []

def requests (m : Method) : List Request :=
  .text m.name :: .text m.descriptor :: m.places.flatMap m.requestsAt

end Method

/-- What writing a class asks its pool for, in order. -/
def ClassFile.requests (c : ClassFile) : List Request :=
  .className c.name :: (c.superName.elim [] (fun name => [.className name]) ++
    c.methods.flatMap Method.requests)

/-! ## What has to be computed -/

def Instruction.Encodable : Instruction → Prop
  | .invoke opcode _ _ descriptor _ => ∃ operands, interfaceOperands opcode descriptor = .ok operands
  | .variable _ _ | .pushString _ | .plain _ | .raw _ => True

/-- The frame of a body of `m` and the operands of its calls can be computed. -/
structure Body.Computable (m : Method) (body : Body) : Prop where
  frame : ∃ frame, m.frameOf body = .ok frame
  instructions : ∀ i ∈ body.instructions, i.Encodable

def Method.Computable (m : Method) : Prop := ∀ body, m.body = some body → body.Computable m

def ClassFile.Computable (c : ClassFile) : Prop := ∀ m ∈ c.methods, m.Computable

/-! ## Writing asks for this -/

theorem Instruction.needs_encode {i : Instruction} (h : i.Encodable) :
    Needs i.encode i.requests := by
  cases i with
  | «variable» opcode slot => exact Needs.pure _
  | invoke opcode owner name descriptor interface =>
    obtain ⟨operands, hoperands⟩ := h
    exact (Needs.perform (.methodRef owner name descriptor interface)).map fun index =>
      (Needs.lift hoperands).map fun _ => Needs.pure _
  | pushString text =>
    refine (Needs.perform (.string text)).map fun index => ?_
    split
    · exact Needs.pure _
    · exact Needs.pure _
  | plain opcode => exact Needs.pure _
  | raw octets => exact Needs.pure _

theorem Annotations.needs_encode (entries : List AnnotationEntry) :
    Needs (encode entries) (entries.flatMap fun e => [.text e.descriptor]) := by
  have hentry (e : AnnotationEntry) : Needs (encodeEntry e) [.text e.descriptor] :=
    (Needs.perform (.text e.descriptor)).map fun _ => Needs.pure _
  exact (Needs.mapM entries fun e _ => hentry e).map fun _ => Needs.pure _

namespace Method

theorem needs_bodyAttribute {m : Method} {body : Body} (h : body.Computable m) :
    Needs (m.bodyAttribute body) body.requests := by
  obtain ⟨⟨frame, hframe⟩, hinstructions⟩ := h
  have hcode := Needs.mapM body.instructions fun i hi => Instruction.needs_encode (hinstructions i hi)
  exact (Needs.perform (.text bodyName)).bind fun _ =>
    (Needs.lift hframe).bind fun _ => hcode.map fun _ => Needs.pure _

theorem needs_annotationAttribute (name : String) (entries : List AnnotationEntry) :
    Needs (annotationAttribute name entries) (Annotations.requests name entries) :=
  (Needs.perform (.text name)).bind fun _ =>
    (Annotations.needs_encode entries).map fun _ => Needs.pure _

theorem needs_attributeAt {m : Method} (h : m.Computable) (place : Place) :
    Needs (m.attributeAt place) (m.requestsAt place) := by
  unfold attributeAt requestsAt
  cases place with
  | body =>
    cases hbody : m.body with
    | none => exact Needs.pure _
    | some body => exact (needs_bodyAttribute (h body hbody)).map fun _ => Needs.pure _
  | visible =>
    cases m.visible with
    | none => exact Needs.pure _
    | some entries =>
      exact (needs_annotationAttribute visibleName entries).map fun _ => Needs.pure _
  | invisible =>
    cases m.invisible with
    | none => exact Needs.pure _
    | some entries =>
      exact (needs_annotationAttribute invisibleName entries).map fun _ => Needs.pure _
  | other kept => exact Needs.pure _

theorem needs_encode {m : Method} (h : m.Computable) : Needs m.encode m.requests := by
  have hattributes := Needs.mapM m.places fun place _ => needs_attributeAt h place
  exact (Needs.perform (.text m.name)).bind fun _ =>
    (Needs.perform (.text m.descriptor)).bind fun _ => hattributes.map fun _ => Needs.pure _

end Method

namespace ClassFile

theorem needs_encodeMembers {c : ClassFile} (h : c.Computable) :
    Needs c.encodeMembers c.requests := by
  have hsuper : Needs (superIndex c.superName)
      (c.superName.elim [] fun name => [.className name]) := by
    cases c.superName with
    | none => exact Needs.pure _
    | some name => exact Needs.perform (.className name)
  have hmethods := Needs.mapM c.methods fun m hm => Method.needs_encode (h m hm)
  exact (Needs.perform (.className c.name)).bind fun _ =>
    hsuper.bind fun _ => hmethods.map fun _ => Needs.pure _

/-- What the pool of a class would hold, without a limit, after the class was written. -/
def finalLedger (c : ClassFile) : Ledger := Ledger.after c.requests (Ledger.ofPool c.pool)

theorem write_eq_of_run {c : ClassFile} {result : Except ClassError Bytes} {pool : ConstantPool}
    (h : c.encodeMembers c.pool = (result, pool)) :
    c.write = result.map fun members =>
      be32 magic ++ (be16 c.minor ++ (be16 c.major ++ (pool.encode ++ members))) := by
  have hrun : c.encodeMembers.run.run c.pool = (result, pool) := h
  rw [write, hrun]
  cases result <;> rfl

/-- The pool that is written holds just this. -/
theorem Computable.ofPool_of_write {c : ClassFile} {octets : Bytes} (h : c.Computable)
    (hw : c.write = .ok octets) :
    Ledger.ofPool (c.encodeMembers.run.run c.pool).2 = c.finalLedger := by
  cases hrun : c.encodeMembers.run.run c.pool with
  | mk result pool =>
    cases result with
    | ok members => exact (Follows.ok (needs_encodeMembers h) hrun).1.symm
    | error e =>
      rw [write_eq_of_run hrun] at hw
      cases hw

/-- A class whose frames and operands can be computed is written if there is room for what its
pool would hold, and else the pool is too small. -/
theorem Computable.write_outcome {c : ClassFile} (h : c.Computable) :
    if c.finalLedger.length < 65535 then ∃ octets, c.write = .ok octets
    else c.write = .error .poolOverflow := by
  split
  · rename_i hroom
    obtain ⟨members, pool, hrun⟩ := (needs_encodeMembers h).exists_ok hroom
    exact ⟨_, write_eq_of_run hrun⟩
  · rename_i hfull
    obtain ⟨pool, hrun⟩ := (needs_encodeMembers h).exists_error (Nat.le_of_not_lt hfull)
    exact write_eq_of_run hrun

theorem Computable.exists_write {c : ClassFile} (h : c.Computable)
    (hroom : c.finalLedger.length < 65535) : ∃ octets, c.write = .ok octets := by
  have houtcome := h.write_outcome
  rwa [if_pos hroom] at houtcome

end ClassFile

/-! ## Only this is looked at -/

theorem Instruction.IsEncoded.encodable {pool : ConstantPool} {i : Instruction} {octets : Bytes}
    (h : i.IsEncoded pool octets) : i.Encodable := by
  cases i with
  | invoke opcode owner name descriptor interface =>
    obtain ⟨_, -, operands, hoperands, -⟩ := h
    exact ⟨operands, hoperands⟩
  | _ => trivial

theorem MethodLayout.IsWritten.computable {pool : ConstantPool} {m : Method} {l : MethodLayout}
    (h : l.IsWritten pool m) : m.Computable := by
  intro body hbody
  have hmem : Place.body ∈ m.written :=
    (Method.mem_written_iff rfl).2 (by simp [Method.has, hbody])
  obtain ⟨item, -, body', hbody', hholds⟩ := exists_mem_of_forall₂ h.attributes hmem
  obtain rfl : body = body' := Option.some.inj (hbody.symm.trans hbody')
  obtain ⟨frame, parts, hframe, hparts, -⟩ := hholds.payload
  exact ⟨⟨frame, hframe⟩,
    forall_mem_right_of_forall₂ (List.Forall₂.flip hparts) fun _ _ hi =>
      Instruction.IsEncoded.encodable hi⟩

namespace ClassFile

theorem computable_of_write {c : ClassFile} {octets : Bytes} (h : c.write = .ok octets) :
    c.Computable := by
  obtain ⟨l, -, -, -, hl⟩ := exists_isWritten_of_write h
  exact forall_mem_right_of_forall₂ (List.Forall₂.flip hl.methods) fun _ _ hm => hm.computable

/-- A class is written exactly when its frames and operands can be computed and there is room for
what its pool would hold, whatever the sizes of its other parts. -/
theorem exists_write_iff {c : ClassFile} :
    (∃ octets, c.write = .ok octets) ↔ c.Computable ∧ c.finalLedger.length < 65535 := by
  constructor
  · rintro ⟨octets, hwrite⟩
    have hcomputable := computable_of_write hwrite
    have houtcome := hcomputable.write_outcome
    refine ⟨hcomputable, Decidable.byContradiction fun hfull => ?_⟩
    rw [if_neg hfull, hwrite] at houtcome
    cases houtcome
  · rintro ⟨hcomputable, hroom⟩
    have houtcome := hcomputable.write_outcome
    rwa [if_pos hroom] at houtcome

theorem exists_write_bare (major access : UInt16) (name : String) :
    ∃ octets, (bare major access name none).write = .ok octets := by
  have hcomputable : (bare major access name none).Computable := by simp [Computable, bare]
  have hledger : (bare major access name none).finalLedger =
      [.text (ModifiedUtf8.encode name), .class 1] := by
    simp [finalLedger, requests, bare, Ledger.after, Ledger.ofPool, ConstantPool.empty,
      Request.enter, Ledger.className, Ledger.text, Ledger.enter, bind, StateT.bind]
  have houtcome := hcomputable.write_outcome
  rwa [hledger, if_pos (by simp)] at houtcome

/-- A name that is too long for the length field of its text is written all the same. -/
theorem exists_write_long_name :
    65535 < (ModifiedUtf8.encode (String.ofList (List.replicate 65536 'a'))).length ∧
      ∃ octets, (bare 52 1 (String.ofList (List.replicate 65536 'a')) none).write = .ok octets := by
  refine ⟨?_, exists_write_bare 52 1 _⟩
  have hletters := ModifiedUtf8.length_toList_le_length_encode
    (String.ofList (List.replicate 65536 'a'))
  rwa [String.toList_ofList, List.length_replicate] at hletters

end ClassFile

end PlatformLink
