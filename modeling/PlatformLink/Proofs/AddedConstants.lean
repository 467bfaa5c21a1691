import PlatformLink.Proofs.WritingSpec

/-! # The constants that writing adds

Writing a class adds texts and references to the pool, none of which takes two slots. When every
text fits its length field (`ClassFile.texts`), the pool that is written can be read back if the
one before could: `ClassFile.slotted_of_write`.
-/

namespace PlatformLink
set_option autoImplicit false

/-- The octets of a text are no more than its length field can say. -/
def ModifiedUtf8.Fits (text : String) : Prop := (encode text).length ≤ 65535

instance (text : String) : Decidable (ModifiedUtf8.Fits text) :=
  inferInstanceAs (Decidable (_ ≤ _))

/-! ## Texts -/

/-- The texts in an instruction. -/
def Instruction.texts : Instruction → List String
  | .invoke _ owner name descriptor _ => [owner, name, descriptor]
  | .pushString text => [text]
  | .variable _ _ | .plain _ | .raw _ => []

/-- The texts in a method. -/
def Method.texts (m : Method) : List String :=
  m.name :: m.descriptor :: ((m.body.getD .empty).instructions.flatMap Instruction.texts ++
    ((m.visible.getD []).map (·.descriptor) ++ (m.invisible.getD []).map (·.descriptor)))

/-- The texts in a class. -/
def ClassFile.texts (c : ClassFile) : List String :=
  c.name :: (c.superName.toList ++ c.methods.flatMap Method.texts)

/-! ## What is added -/

/-- An entry of one slot that can be written down. -/
def Constant.IsNarrow (c : Constant) : Prop := c.isWide = false ∧ c.Fits

theorem ConstantPool.slotted_append {entries added : List Constant} (h : Slotted entries)
    (ha : ∀ c ∈ added, c.IsNarrow) : Slotted (entries ++ added) := by
  induction h with
  | nil =>
    induction added with
    | nil => exact .nil
    | cons c added ih =>
      obtain ⟨⟨hwide, hfits⟩, ha⟩ := List.forall_mem_cons.1 ha
      have hslots : slotsOf c = [c] := by simp [slotsOf, hwide]
      have htail := Slotted.cons hfits (ih ha)
      rwa [hslots] at htail
  | cons fits _ ih =>
    rw [List.append_assoc]
    exact .cons fits ih

namespace Interning

theorem adds_text {value : String} (h : ModifiedUtf8.Fits value) :
    Adds Constant.IsNarrow (text value) :=
  Adds.intern ⟨rfl, h⟩

theorem adds_className {name : String} (h : ModifiedUtf8.Fits name) :
    Adds Constant.IsNarrow (className name) :=
  (adds_text h).bind fun _ => Adds.intern ⟨rfl, trivial⟩

theorem adds_string {value : String} (h : ModifiedUtf8.Fits value) :
    Adds Constant.IsNarrow (string value) :=
  (adds_text h).bind fun _ => Adds.intern ⟨rfl, trivial⟩

theorem adds_nameAndType {name descriptor : String} (hn : ModifiedUtf8.Fits name)
    (hd : ModifiedUtf8.Fits descriptor) : Adds Constant.IsNarrow (nameAndType name descriptor) :=
  (adds_text hn).bind fun _ => (adds_text hd).bind fun _ => Adds.intern ⟨rfl, trivial⟩

theorem adds_methodRef {owner name descriptor : String} (interface : Bool)
    (ho : ModifiedUtf8.Fits owner) (hn : ModifiedUtf8.Fits name)
    (hd : ModifiedUtf8.Fits descriptor) :
    Adds Constant.IsNarrow (methodRef owner name descriptor interface) := by
  refine (adds_className ho).bind fun _ => (adds_nameAndType hn hd).bind fun _ => ?_
  cases interface with
  | false => exact Adds.intern ⟨rfl, trivial⟩
  | true => exact Adds.intern ⟨rfl, trivial⟩

end Interning

open Interning

theorem Annotations.adds_encode {es : List AnnotationEntry}
    (h : ∀ text ∈ es.map (·.descriptor), ModifiedUtf8.Fits text) :
    Adds Constant.IsNarrow (encode es) := by
  rw [List.forall_mem_map] at h
  have hentry (e : AnnotationEntry) (he : e ∈ es) : Adds Constant.IsNarrow (encodeEntry e) :=
    (adds_text (h e he)).bind fun _ => Adds.pure _
  exact (Adds.mapM es hentry).bind fun _ => Adds.pure _

theorem Instruction.adds_encode {i : Instruction} (h : ∀ text ∈ i.texts, ModifiedUtf8.Fits text) :
    Adds Constant.IsNarrow i.encode := by
  cases i with
  | «variable» opcode slot => exact Adds.pure _
  | invoke opcode owner name descriptor interface =>
    simp only [texts, List.forall_mem_cons] at h
    obtain ⟨ho, hn, hd, -⟩ := h
    exact (adds_methodRef interface ho hn hd).bind fun _ => (Adds.lift _).bind fun _ => Adds.pure _
  | pushString text =>
    refine (adds_string (h text (by simp [texts]))).bind fun index => ?_
    split
    · exact Adds.pure _
    · exact Adds.pure _
  | plain opcode => exact Adds.pure _
  | raw octets => exact Adds.pure _

namespace Method

theorem adds_bodyAttribute {m : Method} {body : Body}
    (h : ∀ text ∈ body.instructions.flatMap Instruction.texts, ModifiedUtf8.Fits text) :
    Adds Constant.IsNarrow (m.bodyAttribute body) := by
  have hname : ModifiedUtf8.Fits bodyName := by decide
  have hcode := Adds.mapM (f := Instruction.encode) body.instructions fun i hi =>
    Instruction.adds_encode fun text ht => h text (List.mem_flatMap.2 ⟨i, hi, ht⟩)
  exact (adds_text hname).bind fun _ => (Adds.lift _).bind fun _ => hcode.bind fun _ => Adds.pure _

theorem adds_annotationAttribute {name : String} {es : List AnnotationEntry}
    (hname : ModifiedUtf8.Fits name) (h : ∀ text ∈ es.map (·.descriptor), ModifiedUtf8.Fits text) :
    Adds Constant.IsNarrow (annotationAttribute name es) :=
  (adds_text hname).bind fun _ => (Annotations.adds_encode h).bind fun _ => Adds.pure _

theorem adds_attributeAt {m : Method} (h : ∀ text ∈ m.texts, ModifiedUtf8.Fits text)
    (place : Place) : Adds Constant.IsNarrow (m.attributeAt place) := by
  simp only [texts, List.forall_mem_cons, List.forall_mem_append] at h
  obtain ⟨-, -, hbody, hvisible, hinvisible⟩ := h
  have hv : ModifiedUtf8.Fits visibleName := by decide
  have hi : ModifiedUtf8.Fits invisibleName := by decide
  unfold attributeAt
  split
  · split
    · exact Adds.pure _
    · rename_i body hb
      rw [hb] at hbody
      exact (adds_bodyAttribute hbody).bind fun _ => Adds.pure _
  · split
    · exact Adds.pure _
    · rename_i es hes
      rw [hes] at hvisible
      exact (adds_annotationAttribute hv hvisible).bind fun _ => Adds.pure _
  · split
    · exact Adds.pure _
    · rename_i es hes
      rw [hes] at hinvisible
      exact (adds_annotationAttribute hi hinvisible).bind fun _ => Adds.pure _
  · exact Adds.pure _

theorem adds_encode {m : Method} (h : ∀ text ∈ m.texts, ModifiedUtf8.Fits text) :
    Adds Constant.IsNarrow m.encode := by
  have hname := h m.name (by simp [texts])
  have hdescriptor := h m.descriptor (by simp [texts])
  have hattributes := Adds.mapM m.places fun place _ => adds_attributeAt h place
  exact (adds_text hname).bind fun _ => (adds_text hdescriptor).bind fun _ =>
    hattributes.bind fun _ => Adds.pure _

end Method

namespace ClassFile

theorem adds_encodeMembers {c : ClassFile} (h : ∀ text ∈ c.texts, ModifiedUtf8.Fits text) :
    Adds Constant.IsNarrow c.encodeMembers := by
  simp only [texts, List.forall_mem_cons, List.forall_mem_append] at h
  obtain ⟨hname, hsuper, hmethods⟩ := h
  have hsuper : Adds Constant.IsNarrow (superIndex c.superName) := by
    cases hs : c.superName with
    | none => exact Adds.pure _
    | some name => exact adds_className (hsuper name (by simp [hs]))
  have hmethods := Adds.mapM (f := Method.encode) c.methods fun m hm =>
    Method.adds_encode fun text ht => hmethods text (List.mem_flatMap.2 ⟨m, hm, ht⟩)
  exact (adds_className hname).bind fun _ => hsuper.bind fun _ => hmethods.bind fun _ => Adds.pure _

theorem slotted_of_write {c : ClassFile} (h : ∀ text ∈ c.texts, ModifiedUtf8.Fits text)
    (hs : ConstantPool.Slotted c.pool.entries.toList) :
    ConstantPool.Slotted (c.encodeMembers.run.run c.pool).2.entries.toList := by
  obtain ⟨added, he, hnarrow⟩ := adds_encodeMembers h c.pool
  have happend := ConstantPool.slotted_append hs hnarrow
  rwa [← he] at happend

end ClassFile

end PlatformLink
