import PlatformLink.Proofs.AddedConstants

/-! # Reading a class that was written

A class whose parts can be read back (`ClassFile.Rereadable`) is found again from the octets that
are written for it, with its instructions as octets, its computed frames in place and its methods'
attributes in the order of their places: `ClassFile.read_of_write`. What is found is written in
the same octets again: `ClassFile.ReadBack.write_eq`.
-/

namespace PlatformLink
set_option autoImplicit false

open Reader

/-! ## What can be read back -/

/-- A body with the given frame and the octets of its instructions. -/
def Body.reread (body : Body) (frame : FrameSize) (parts : List Bytes) : Body :=
  ⟨some frame, parts.map .raw, body.handlers, body.attributes⟩

/-- What is written for the body of `m`, over any larger pool, can be read back. -/
def Body.Rereadable (pool : ConstantPool) (m : Method) (body : Body) : Prop :=
  ∀ pool' frame parts, pool ≤ pool' → m.frameOf body = .ok frame →
    List.Forall₂ (fun i part => Instruction.IsEncoded pool' i part) body.instructions parts →
      (body.reread frame parts).Readable pool' frame parts ∧
        (Method.bodyPayload frame parts.flatten body).length < 4294967296

structure Annotations.Rereadable (es : List AnnotationEntry) : Prop where
  length : es.length ≤ 65535
  elements : ∀ e ∈ es, IsElements e.elements
  payload : payloadLength es < 4294967296

structure Method.Rereadable (pool : ConstantPool) (m : Method) : Prop where
  body : ∀ body, m.body = some body → body.Rereadable pool m
  visible : ∀ es, m.visible = some es → Annotations.Rereadable es
  invisible : ∀ es, m.invisible = some es → Annotations.Rereadable es
  others : ∀ kept, .other kept ∈ m.order → kept.Fits ∧ ∃ name, pool.text kept.name = .ok name
  ordered : Ordered pool m.written.reverse
  count : m.written.length ≤ 65535

structure ClassFile.Rereadable (c : ClassFile) : Prop where
  pool : ConstantPool.Slotted c.pool.entries.toList
  texts : ∀ text ∈ c.texts, ModifiedUtf8.Fits text
  interfaces : c.interfaces.length ≤ 65535
  fields : c.fields.length ≤ 65535 ∧ ∀ f ∈ c.fields, f.Fits
  methods : c.methods.length ≤ 65535 ∧ ∀ m ∈ c.methods, m.Rereadable c.pool
  attributes : Attribute.AllFit c.attributes

/-! ## What is read back -/

/-- `m'` is what is read back for `m`. -/
structure Method.ReadBack (pool : ConstantPool) (m m' : Method) : Prop where
  access : m'.access = m.access
  name : m'.name = m.name
  descriptor : m'.descriptor = m.descriptor
  visible : m'.visible = m.visible
  invisible : m'.invisible = m.invisible
  order : m'.order = m.written
  isSome_body : m'.body.isSome = m.body.isSome
  body : ∀ body, m.body = some body → ∃ frame parts, m.frameOf body = .ok frame ∧
    List.Forall₂ (fun i part => Instruction.IsEncoded pool i part) body.instructions parts ∧
      m'.body = some (body.reread frame parts)

/-- `c'` is what is read back for `c`. -/
structure ClassFile.ReadBack (c c' : ClassFile) : Prop where
  minor : c'.minor = c.minor
  major : c'.major = c.major
  pool : c.pool ≤ c'.pool
  access : c'.access = c.access
  name : c'.name = c.name
  superName : c'.superName = c.superName
  interfaces : c'.interfaces = c.interfaces
  fields : c'.fields = c.fields
  methods : List.Forall₂ (Method.ReadBack c'.pool) c.methods c'.methods
  attributes : c'.attributes = c.attributes

/-! ## Methods -/

namespace Method

theorem mem_written_iff {m : Method} {part : Place} {name : String}
    (h : part.attributeName? = some name) : part ∈ m.written ↔ m.has part = true := by
  have hplaces : part ∈ m.places := by
    rw [places, List.mem_append, List.mem_filter]
    by_cases hmem : part ∈ m.order
    · exact .inl hmem
    · refine .inr ⟨?_, by simpa using hmem⟩
      cases part with
      | other kept => cases h
      | _ => simp
  rw [written, List.mem_filter, and_iff_right hplaces]

theorem other_mem_order {m : Method} {kept : Attribute} (h : .other kept ∈ m.written) :
    .other kept ∈ m.order := by
  obtain ⟨hplaces, -⟩ := List.mem_filter.1 h
  rw [places, List.mem_append, List.mem_filter] at hplaces
  simpa using hplaces

/-- Growth of the pool changes no name of an attribute that is carried through. -/
theorem Ordered.mono {pool pool' : ConstantPool} (hle : pool ≤ pool') {places : List Place}
    (h : Ordered pool places)
    (hnames : ∀ kept, .other kept ∈ places → ∃ name, pool.text kept.name = .ok name) :
    Ordered pool' places := by
  induction places with
  | nil => trivial
  | cons place before ih =>
    refine ⟨?_, ih h.2 fun kept hk => hnames kept (List.mem_cons_of_mem _ hk)⟩
    cases place with
    | other kept =>
      intro part name hp hname
      obtain ⟨found, hfound⟩ := hnames kept List.mem_cons_self
      have hsame := (ConstantPool.text_of_le hle hfound).symm.trans hname
      exact h.1 part name hp (Except.ok.inj hsame ▸ hfound)
    | _ => exact h.1

theorem ReadBack.has {pool : ConstantPool} {m m' : Method} (h : m.ReadBack pool m') (place : Place) :
    m'.has place = m.has place := by
  cases place with
  | body => exact h.isSome_body
  | visible => simp only [Method.has, h.visible]
  | invisible => simp only [Method.has, h.invisible]
  | other kept => rfl

/-- The body that is read back, by any frame and octets that are written for it. -/
theorem ReadBack.body_eq {pool : ConstantPool} {m m' : Method} (h : m.ReadBack pool m')
    {body : Body} {frame : FrameSize} {parts : List Bytes} (hbody : m.body = some body)
    (hframe : m.frameOf body = .ok frame)
    (hparts : List.Forall₂ (fun i part => Instruction.IsEncoded pool i part) body.instructions
      parts) : m'.body = some (body.reread frame parts) := by
  obtain ⟨frame', parts', hframe', hparts', hbody'⟩ := h.body body hbody
  obtain rfl : frame = frame' := Except.ok.inj (hframe.symm.trans hframe')
  have hunique := (Interning.Spec.mapM Instruction.spec_encode body.instructions).unique hparts
    hparts'
  rw [hbody', hunique]

theorem decode_of_holdsEntries {pool : ConstantPool} {name : String} {es : List AnnotationEntry}
    {item : Attribute} (h : item.HoldsEntries pool name es) (hes : Annotations.Rereadable es) :
    pool.text item.name = .ok name ∧ Annotations.decode pool item.payload = .ok es ∧
      item.Fits := by
  obtain ⟨ls, hpayload, hls⟩ := h.payload
  refine ⟨h.name.text, ?_, ?_⟩
  · rw [hpayload]
    exact Annotations.decode_of_isWritten hls hes.length hes.elements
  · rw [Attribute.Fits, hpayload, Annotations.length_of_isWritten hls]
    exact hes.payload

/-- What is written at a place is what is read there. -/
theorem Rereadable.decodes {pool pool' : ConstantPool} {m m' : Method} (h : m.Rereadable pool)
    (hle : pool ≤ pool') (hback : m.ReadBack pool' m') {place : Place} {item : Attribute}
    (hmem : place ∈ m.written) (hw : m.Writes pool' place item) :
    m'.Decodes pool' place item ∧ item.Fits := by
  cases place with
  | body =>
    obtain ⟨body, hbody, hname, frame, parts, hframe, hparts, hpayload⟩ := hw
    have hbody' := hback.body_eq hbody hframe hparts
    obtain ⟨hreadable, hlength⟩ := h.body body hbody pool' frame parts hle hframe hparts
    refine ⟨⟨hname.text, _, hbody', ?_⟩, ?_⟩
    · rw [(Body.reads_read pool').parse_eq_ok_iff]
      exact ⟨_, [], by rw [hpayload, List.append_nil]; rfl, frame, parts, rfl, hreadable⟩
    · rw [Attribute.Fits, hpayload]
      exact hlength
  | visible =>
    obtain ⟨es, hes, hholds⟩ := hw
    obtain ⟨hname, hdecode, hfits⟩ := decode_of_holdsEntries hholds (h.visible es hes)
    exact ⟨⟨hname, es, hback.visible.trans hes, hdecode⟩, hfits⟩
  | invisible =>
    obtain ⟨es, hes, hholds⟩ := hw
    obtain ⟨hname, hdecode, hfits⟩ := decode_of_holdsEntries hholds (h.invisible es hes)
    exact ⟨⟨hname, es, hback.invisible.trans hes, hdecode⟩, hfits⟩
  | other kept =>
    obtain rfl : item = kept := hw
    obtain ⟨hfits, name, hname⟩ := h.others item (other_mem_order hmem)
    exact ⟨⟨rfl, name, ConstantPool.text_of_le hle hname⟩, hfits⟩

theorem exists_readBack {pool : ConstantPool} {m : Method} {items : List Attribute}
    (h : List.Forall₂ (m.Writes pool) m.written items) : ∃ m', m.ReadBack pool m' := by
  cases hbody : m.body with
  | none =>
    refine ⟨{ m with order := m.written }, rfl, rfl, rfl, rfl, rfl, rfl, rfl, ?_⟩
    simp [hbody]
  | some body =>
    -- the attribute that is written for the body says which frame and octets it has
    have hmem : Place.body ∈ m.written := (mem_written_iff rfl).2 (by simp [has, hbody])
    obtain ⟨item, -, body', hbody', -, frame, parts, hframe, hparts, -⟩ :=
      exists_mem_of_forall₂ h hmem
    obtain rfl : body = body' := Option.some.inj (hbody.symm.trans hbody')
    refine ⟨{ m with body := some (body.reread frame parts), order := m.written }, rfl, rfl, rfl,
      rfl, rfl, rfl, by simp [hbody], ?_⟩
    rintro body'' hbody''
    obtain rfl : body = body'' := Option.some.inj (hbody.symm.trans hbody'')
    exact ⟨frame, parts, hframe, hparts, rfl⟩

theorem Rereadable.describes {pool pool' : ConstantPool} {m : Method} {l : MethodLayout}
    (h : m.Rereadable pool) (hle : pool ≤ pool') (hl : l.IsWritten pool' m) :
    ∃ m', m.ReadBack pool' m' ∧ l.Describes pool' m' ∧ l.Fits := by
  obtain ⟨m', hback⟩ := exists_readBack hl.attributes
  have hboth := (List.forall₂_and_left _ _).2 ⟨fun place hp => hp, hl.attributes⟩
  have hread := hboth.imp fun place item hw => h.decodes hle hback hw.1 hw.2
  refine ⟨m', hback, ⟨?_, ?_, ?_, ⟨?_, ?_, ?_⟩⟩, ?_, ?_⟩
  · rw [hback.access, hl.access]
  · rw [hback.name]
    exact hl.name.text
  · rw [hback.descriptor]
    exact hl.descriptor.text
  · rw [hback.order]
    exact hread.imp fun place item hr => hr.1
  · rw [hback.order]
    refine h.ordered.mono hle fun kept hk => (h.others kept ?_).2
    exact other_mem_order (List.mem_reverse.1 hk)
  · intro part name hp
    rw [hback.has, hback.order, mem_written_iff hp]
  · rw [← hl.attributes.length_eq]
    exact h.count
  · exact forall_mem_right_of_forall₂ hread fun _ _ hr => hr.2

theorem ReadBack.writes {pool : ConstantPool} {m m' : Method} (h : m.ReadBack pool m')
    {place : Place} {item : Attribute} (hw : m.Writes pool place item) :
    m'.Writes pool place item := by
  cases place with
  | body =>
    obtain ⟨body, hbody, hname, frame, parts, hframe, hparts, hpayload⟩ := hw
    have hbody' := h.body_eq hbody hframe hparts
    refine ⟨_, hbody', hname, frame, parts, rfl, ?_, hpayload⟩
    exact Instruction.forall₂_isEncoded_raw_iff.2 rfl
  | visible =>
    obtain ⟨es, hes, hholds⟩ := hw
    exact ⟨es, h.visible.trans hes, hholds⟩
  | invisible =>
    obtain ⟨es, hes, hholds⟩ := hw
    exact ⟨es, h.invisible.trans hes, hholds⟩
  | other kept => exact hw

theorem ReadBack.isWritten {pool : ConstantPool} {m m' : Method} {l : MethodLayout}
    (h : m.ReadBack pool m') (hd : l.Describes pool m') (hw : l.IsWritten pool m) :
    l.IsWritten pool m' := by
  refine ⟨?_, ?_, ?_, ?_⟩
  · rw [hw.access, h.access]
  · rw [h.name]
    exact hw.name
  · rw [h.descriptor]
    exact hw.descriptor
  · rw [hd.attributes.written_eq, h.order]
    exact hw.attributes.imp fun place item hp => h.writes hp

end Method

/-! ## Classes -/

theorem ConstantPool.IsFirstSuper.superName {pool : ConstantPool} {index : UInt16}
    {name : Option String} (h : pool.IsFirstSuper index name) :
    ClassFile.SuperName pool index name := by
  cases name with
  | none => exact h
  | some name =>
    refine ⟨?_, IsFirstClass.className h⟩
    obtain ⟨nameIndex, -, hclass⟩ := h
    rintro rfl
    exact hclass.1.1 rfl

namespace ClassFile

theorem Rereadable.describes {c : ClassFile} {l : ClassLayout} (h : c.Rereadable)
    (hle : c.pool ≤ l.pool) (hl : l.IsWritten c) :
    ∃ c', c.ReadBack c' ∧ l.Describes c' ∧ l.methods.length ≤ 65535 ∧ ∀ m ∈ l.methods, m.Fits := by
  have hboth := (List.forall₂_and_left _ _).2 ⟨h.methods.2, hl.methods⟩
  have hback := hboth.imp fun m l' hm => hm.1.describes hle hm.2
  have hfits := forall_mem_right_of_forall₂ hback (Q := fun l' => l'.Fits)
    fun _ _ ⟨_, _, _, hf⟩ => hf
  obtain ⟨methods, hmethods, hdescribes⟩ := exists_forall₂ hback
  refine ⟨{ c with pool := l.pool, methods := methods }, ?_, ?_, hl.methods.length_eq ▸ h.methods.1,
    hfits⟩
  · exact ⟨rfl, rfl, hle, rfl, rfl, rfl, rfl, rfl, hmethods, rfl⟩
  · exact ⟨hl.minor.symm, hl.major.symm, rfl, hl.access.symm, hl.name.className,
      hl.superName.superName, hl.interfaces.symm, hl.fields.symm,
      hdescribes.imp fun l' m' hd => hd.1, hl.attributes.symm⟩

/-- The layout that is written for such a class is that of a class, read back from it. -/
theorem Rereadable.exists_readBack {c : ClassFile} {l : ClassLayout} (h : c.Rereadable)
    (hpool : l.pool = (c.encodeMembers.run.run c.pool).2) (hle : c.pool ≤ l.pool)
    (hl : l.IsWritten c) : ∃ c', l.Describes c' ∧ c.ReadBack c' ∧ l.Fits := by
  obtain ⟨c', hback, hd, hmethods⟩ := h.describes hle hl
  refine ⟨c', hd, hback, ?_, ?_, ?_, hmethods, ?_⟩
  · rw [hpool]
    exact slotted_of_write h.texts h.pool
  · rw [hl.interfaces]
    exact h.interfaces
  · rw [hl.fields]
    exact h.fields
  · rw [hl.attributes]
    exact h.attributes

theorem read_of_write {c : ClassFile} {octets : Bytes} (h : c.Rereadable)
    (hw : c.write = .ok octets) :
    ∃ (l : ClassLayout) (c' : ClassFile), octets = l.encode ∧ l.IsWritten c ∧ l.Describes c' ∧
      c.ReadBack c' ∧ read octets = .ok c' := by
  obtain ⟨l, rfl, hpool, hle, hl⟩ := exists_isWritten_of_write hw
  obtain ⟨c', hd, hback, hfits⟩ := h.exists_readBack hpool hle hl
  exact ⟨l, c', rfl, hl, hd, hback,
    read_eq_ok_iff.2 ⟨l, ClassLayout.parse_eq_ok_iff.2 ⟨rfl, hfits⟩, hd⟩⟩

theorem ReadBack.write_eq {c c' : ClassFile} {l : ClassLayout} (h : c.ReadBack c')
    (hd : l.Describes c') (hl : l.IsWritten c) : c'.write = .ok l.encode := by
  have hpool : c'.pool = l.pool := hd.pool
  have hmethods := forall₂_join h.methods hl.methods
  refine write_of_isWritten ⟨?_, ?_, ?_, ?_, ?_, ?_, ?_, ?_, ?_⟩ hd.pool.symm
  · rw [hl.minor, h.minor]
  · rw [hl.major, h.major]
  · rw [hl.access, h.access]
  · rw [h.name]
    exact hl.name
  · rw [h.superName]
    exact hl.superName
  · rw [hl.interfaces, h.interfaces]
  · rw [hl.fields, h.fields]
  · refine List.Forall₂.mp ?_ (List.Forall₂.flip hd.methods) hmethods
    rintro m' l' hd' ⟨m, hback, hw⟩
    rw [hpool] at hback
    exact hback.isWritten hd' hw
  · rw [hl.attributes, h.attributes]

end ClassFile

end PlatformLink
