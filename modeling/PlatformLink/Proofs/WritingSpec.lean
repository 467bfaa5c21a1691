import PlatformLink.Proofs.ReadingSpec

/-! # What is written for a class

What the writer puts down is a layout whose texts and classes stand under their smallest indices
(`ClassLayout.IsWritten`): `ClassFile.exists_isWritten_of_write`. Such a layout that needs no new
constants is what is written: `ClassFile.write_of_isWritten`.
-/

namespace PlatformLink
set_option autoImplicit false

/-- A list with at most one result for each member of another, by those that have one. -/
theorem exists_flatten_iff_forall₂_filter {α β : Type} {p : α → Bool} {R : α → β → Prop}
    (as : List α) (bs : List β) :
    (∃ bss : List (List β), bs = bss.flatten ∧
        List.Forall₂ (fun a bs => if p a then ∃ b, bs = [b] ∧ R a b else bs = []) as bss) ↔
      List.Forall₂ R (as.filter p) bs := by
  induction as generalizing bs with
  | nil => simp
  | cons a as ih =>
    -- the first list of results has one member or none, as the filter keeps `a` or not
    simp only [List.forall₂_cons_left_iff]
    by_cases hp : p a = true
    · simp only [List.filter_cons_of_pos hp, hp, if_true, List.forall₂_cons_left_iff]
      constructor
      · rintro ⟨_, rfl, _, bss, ⟨b, rfl, hb⟩, hbss, rfl⟩
        exact ⟨b, bss.flatten, hb, (ih _).1 ⟨bss, rfl, hbss⟩, by simp⟩
      · rintro ⟨b, bs, hb, hbs, rfl⟩
        obtain ⟨bss, rfl, hbss⟩ := (ih _).2 hbs
        exact ⟨[b] :: bss, by simp, _, bss, ⟨b, rfl, hb⟩, hbss, rfl⟩
    · simp only [List.filter_cons_of_neg hp, hp]
      constructor
      · rintro ⟨_, rfl, _, bss, rfl, hbss, rfl⟩
        exact (ih _).1 ⟨bss, by simp, hbss⟩
      · intro hbs
        obtain ⟨bss, rfl, hbss⟩ := (ih _).2 hbs
        exact ⟨[] :: bss, by simp, _, bss, rfl, hbss, rfl⟩

/-! ## Attributes -/

structure Attribute.HoldsEntries (pool : ConstantPool) (name : String)
    (entries : List AnnotationEntry) (item : Attribute) : Prop where
  name : pool.IsFirstText item.name name
  payload : ∃ ls, item.payload = AnnotationLayout.encodeAll ls ∧
    List.Forall₂ (fun e l => AnnotationLayout.IsWritten pool e l) entries ls

/-- The attribute of a body of the method `m`. -/
structure Attribute.HoldsBody (pool : ConstantPool) (m : Method) (body : Body) (item : Attribute) :
    Prop where
  name : pool.IsFirstText item.name bodyName
  payload : ∃ frame parts, m.frameOf body = .ok frame ∧
    List.Forall₂ (fun i part => Instruction.IsEncoded pool i part) body.instructions parts ∧
      item.payload = Method.bodyPayload frame parts.flatten body

/-- A body that was read has one frame, and its instructions are written in one way. -/
theorem Body.Readable.isEncoded_iff {pool pool' : ConstantPool} {m : Method}
    {frame frame' : FrameSize} {parts parts' : List Bytes} {body : Body}
    (h : body.Readable pool frame parts) :
    (m.frameOf body = .ok frame' ∧
      List.Forall₂ (fun i part => Instruction.IsEncoded pool' i part) body.instructions parts') ↔
        frame' = frame ∧ parts' = parts := by
  rw [Method.frameOf, h.frame, h.instructions, Instruction.forall₂_isEncoded_raw_iff]
  simp only [Except.ok.injEq, eq_comm]

namespace Method

/-- The places at which something is written. -/
def written (m : Method) : List Place := m.places.filter m.has

/-- `item` is written at a place of `m`. -/
def Writes (pool : ConstantPool) (m : Method) : Place → Attribute → Prop
  | .body, item => ∃ body, m.body = some body ∧ item.HoldsBody pool m body
  | .visible, item => ∃ entries, m.visible = some entries ∧
    item.HoldsEntries pool visibleName entries
  | .invisible, item => ∃ entries, m.invisible = some entries ∧
    item.HoldsEntries pool invisibleName entries
  | .other kept, item => item = kept

theorem Attributed.written_eq {pool : ConstantPool} {m : Method}
    {attributes : List Attribute} (h : m.Attributed pool attributes) : m.written = m.order := by
  have hplaces : m.order.filter m.has = m.order := by
    rw [List.filter_eq_self]
    exact forall_mem_right_of_forall₂ (List.Forall₂.flip h.decodes) fun _ _ hd => Decodes.has hd
  have hparts (part : Place) (name : String) (hp : part.attributeName? = some name)
      (hmem : part ∉ m.order) : m.has part = false := by
    rw [Bool.eq_false_iff]
    exact fun hhas => hmem ((h.parts part name hp).1 hhas)
  rw [written, places, List.filter_append, hplaces, List.append_right_eq_self,
    List.filter_eq_nil_iff]
  intro part hpart
  obtain ⟨hmem, hnot⟩ := List.mem_filter.1 hpart
  have hnot : part ∉ m.order := by simpa using hnot
  simp only [List.mem_cons, List.not_mem_nil, or_false] at hmem
  obtain rfl | rfl | rfl := hmem
  · simp [hparts .body bodyName rfl hnot]
  · simp [hparts .visible visibleName rfl hnot]
  · simp [hparts .invisible invisibleName rfl hnot]

theorem spec_annotationAttribute (name : String) (entries : List AnnotationEntry) :
    Interning.Spec (annotationAttribute name entries) fun pool item =>
      item.HoldsEntries pool name entries := by
  have h := (Interning.Spec.text name).bind fun index =>
    (Annotations.spec_encode entries).bind fun payload =>
      Interning.Spec.pure (Attribute.mk index payload)
  refine h.congr fun pool item => ?_
  constructor
  · rintro ⟨index, hindex, payload, hpayload, rfl⟩
    exact ⟨hindex, hpayload⟩
  · rintro ⟨hindex, hpayload⟩
    exact ⟨item.name, hindex, item.payload, hpayload, rfl⟩

theorem spec_bodyAttribute (m : Method) (body : Body) :
    Interning.Spec (m.bodyAttribute body) fun pool item => item.HoldsBody pool m body := by
  have h := (Interning.Spec.text bodyName).bind fun index =>
    (Interning.Spec.lift (m.frameOf body)).bind fun frame =>
      (Interning.Spec.mapM Instruction.spec_encode body.instructions).bind fun parts =>
        Interning.Spec.pure (Attribute.mk index (bodyPayload frame parts.flatten body))
  refine h.congr fun pool item => ?_
  constructor
  · rintro ⟨index, hindex, frame, hframe, parts, hparts, rfl⟩
    exact ⟨hindex, frame, parts, hframe, hparts, rfl⟩
  · rintro ⟨hindex, frame, parts, hframe, hparts, hpayload⟩
    exact ⟨item.name, hindex, frame, hframe, parts, hparts, by rw [← hpayload]⟩

theorem spec_singleton {x : Interning Attribute} {Q : ConstantPool → Attribute → Prop}
    (h : Interning.Spec x Q) :
    Interning.Spec (do return [← x]) fun pool items => ∃ item, items = [item] ∧ Q pool item := by
  refine (h.bind fun item => Interning.Spec.pure [item]).congr fun pool items => ?_
  constructor
  · rintro ⟨item, hQ, rfl⟩
    exact ⟨item, rfl, hQ⟩
  · rintro ⟨item, rfl, hQ⟩
    exact ⟨item, hQ, rfl⟩

theorem spec_attributeAt (m : Method) (place : Place) :
    Interning.Spec (m.attributeAt place) fun pool items =>
      if m.has place then ∃ item, items = [item] ∧ m.Writes pool place item else items = [] := by
  cases place with
  | body =>
    unfold attributeAt
    cases hb : m.body with
    | none => exact (Interning.Spec.pure []).congr fun pool items => by simp [has, hb]
    | some body =>
      have h := spec_singleton (spec_bodyAttribute m body)
      exact h.congr fun pool items => by simp [has, hb, Writes]
  | visible =>
    unfold attributeAt
    cases hv : m.visible with
    | none => exact (Interning.Spec.pure []).congr fun pool items => by simp [has, hv]
    | some entries =>
      have h := spec_singleton (spec_annotationAttribute visibleName entries)
      exact h.congr fun pool items => by simp [has, hv, Writes]
  | invisible =>
    unfold attributeAt
    cases hi : m.invisible with
    | none => exact (Interning.Spec.pure []).congr fun pool items => by simp [has, hi]
    | some entries =>
      have h := spec_singleton (spec_annotationAttribute invisibleName entries)
      exact h.congr fun pool items => by simp [has, hi, Writes]
  | other kept =>
    exact (Interning.Spec.pure [kept]).congr fun pool items => by simp [has, Writes]

end Method

/-! ## Methods -/

/-- `l` is what is written for the method `m`. -/
structure MethodLayout.IsWritten (pool : ConstantPool) (m : Method) (l : MethodLayout) : Prop where
  access : l.access = m.access
  name : pool.IsFirstText l.name m.name
  descriptor : pool.IsFirstText l.descriptor m.descriptor
  attributes : List.Forall₂ (m.Writes pool) m.written l.attributes

theorem Method.spec_encode (m : Method) :
    Interning.Spec m.encode fun pool word =>
      ∃ l : MethodLayout, word = l.encode ∧ l.IsWritten pool m := by
  have h := (Interning.Spec.text m.name).bind fun name =>
    (Interning.Spec.text m.descriptor).bind fun descriptor =>
      (Interning.Spec.mapM m.spec_attributeAt m.places).bind fun attributes =>
        Interning.Spec.pure (be16 m.access ++ (be16 name ++ (be16 descriptor ++
          Attribute.encodeAll attributes.flatten)))
  refine h.congr fun pool word => ?_
  constructor
  · rintro ⟨name, hname, descriptor, hdescriptor, attributes, hattributes, rfl⟩
    exact ⟨⟨m.access, name, descriptor, attributes.flatten⟩, rfl, rfl, hname, hdescriptor,
      (exists_flatten_iff_forall₂_filter _ _).1 ⟨attributes, rfl, hattributes⟩⟩
  · rintro ⟨l, rfl, haccess, hname, hdescriptor, hattributes⟩
    obtain ⟨attributes, hflatten, hattributes⟩ :=
      (exists_flatten_iff_forall₂_filter _ _).2 hattributes
    exact ⟨l.name, hname, l.descriptor, hdescriptor, attributes, hattributes, by
      rw [MethodLayout.encode, haccess, hflatten]⟩

/-! ## Classes -/

/-- The smallest index of a super class; index 0 stands for none. -/
def ConstantPool.IsFirstSuper (pool : ConstantPool) (index : UInt16) : Option String → Prop
  | none => index = 0
  | some name => pool.IsFirstClass index name

theorem ClassFile.spec_superIndex (name : Option String) :
    Interning.Spec (superIndex name) fun pool index => pool.IsFirstSuper index name := by
  cases name with
  | none => exact Interning.Spec.pure 0
  | some name => exact Interning.Spec.className name

/-- `l` is what is written for the class `c`. -/
structure ClassLayout.IsWritten (c : ClassFile) (l : ClassLayout) : Prop where
  minor : l.minor = c.minor
  major : l.major = c.major
  access : l.access = c.access
  name : l.pool.IsFirstClass l.name c.name
  superName : l.pool.IsFirstSuper l.superName c.superName
  interfaces : l.interfaces = c.interfaces
  fields : l.fields = c.fields
  methods : List.Forall₂ (fun m l' => MethodLayout.IsWritten l.pool m l') c.methods l.methods
  attributes : l.attributes = c.attributes

namespace ClassFile

theorem spec_encodeMembers (c : ClassFile) :
    Interning.Spec c.encodeMembers fun pool word =>
      ∃ l : ClassLayout, l.pool = pool ∧ word = l.encodeMembers ∧ l.IsWritten c := by
  have h := (Interning.Spec.className c.name).bind fun name =>
    (spec_superIndex c.superName).bind fun superName =>
      (Interning.Spec.mapM_map Method.spec_encode c.methods).bind fun methods =>
        Interning.Spec.pure (be16 c.access ++ (be16 name ++ (be16 superName ++
          (count16 c.interfaces.length ++ (c.interfaces.flatMap be16 ++
            (count16 c.fields.length ++ (c.fields.flatMap Field.encode ++
              (count16 c.methods.length ++ (methods.flatten ++
                Attribute.encodeAll c.attributes)))))))))
  refine h.congr fun pool word => ?_
  constructor
  · rintro ⟨name, hname, superName, hsuper, _, ⟨methods, rfl, hmethods⟩, rfl⟩
    refine ⟨⟨c.minor, c.major, pool, c.access, name, superName, c.interfaces, c.fields, methods,
      c.attributes⟩, rfl, ?_, rfl, rfl, rfl, hname, hsuper, rfl, rfl, hmethods, rfl⟩
    rw [ClassLayout.encodeMembers, hmethods.length_eq, List.flatMap_def (l := methods)]
  · rintro ⟨l, rfl, rfl, -, -, haccess, hname, hsuper, hinterfaces, hfields, hmethods, hattributes⟩
    refine ⟨l.name, hname, l.superName, hsuper, _, ⟨l.methods, rfl, hmethods⟩, ?_⟩
    rw [ClassLayout.encodeMembers, haccess, hinterfaces, hfields, hattributes, hmethods.length_eq,
      List.flatMap_def (l := l.methods)]

theorem exists_isWritten_of_write {c : ClassFile} {octets : Bytes} (h : c.write = .ok octets) :
    ∃ l : ClassLayout, octets = l.encode ∧ l.pool = (c.encodeMembers.run.run c.pool).2 ∧
      c.pool ≤ l.pool ∧ l.IsWritten c := by
  unfold write at h
  split at h
  · rename_i members pool hrun
    cases h
    obtain ⟨hle, l, rfl, rfl, hl⟩ := (spec_encodeMembers c).sound hrun
    refine ⟨l, ?_, by rw [hrun], hle, hl⟩
    rw [ClassLayout.encode, hl.minor, hl.major]
  · cases h

theorem write_of_isWritten {c : ClassFile} {l : ClassLayout} (h : l.IsWritten c)
    (hp : l.pool = c.pool) : c.write = .ok l.encode := by
  have hrun : c.encodeMembers.run.run c.pool = (.ok l.encodeMembers, c.pool) :=
    (spec_encodeMembers c).settled ⟨l, hp, rfl, h⟩
  rw [write, hrun, ClassLayout.encode, h.minor, h.major, hp]

end ClassFile

end PlatformLink
