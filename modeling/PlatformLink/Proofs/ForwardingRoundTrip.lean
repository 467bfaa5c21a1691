import PlatformLink.Proofs.ForwardedBody

/-! # Reading an edited class back

A class that was read, edited and written is read again with everything but the forwarded methods
as it was, and those with the forwarding body: `Forwarding.read_write_edit`.
-/

namespace PlatformLink
set_option autoImplicit false

open Reader

/-! ## Methods that were read -/

theorem Body.Readable.mono {pool pool' : ConstantPool} {frame : FrameSize} {parts : List Bytes}
    {body : Body} (h : body.Readable pool frame parts) (hle : pool ≤ pool') :
    body.Readable pool' frame parts :=
  { h with
    names := fun a ha => by
      obtain ⟨name, hname⟩ := h.names a ha
      exact ⟨name, ConstantPool.text_of_le hle hname⟩ }

theorem Body.Readable.reread_eq {pool pool' : ConstantPool} {m : Method} {frame frame' : FrameSize}
    {parts parts' : List Bytes} {body : Body} (h : body.Readable pool frame parts)
    (hframe : m.frameOf body = .ok frame')
    (hparts : List.Forall₂ (fun i part => Instruction.IsEncoded pool' i part) body.instructions
      parts') : frame' = frame ∧ parts' = parts ∧ body.reread frame' parts' = body := by
  obtain ⟨rfl, rfl⟩ := h.isEncoded_iff.1 ⟨hframe, hparts⟩
  refine ⟨rfl, rfl, ?_⟩
  rw [reread, ← h.frame, ← h.instructions]

namespace Method

variable {pool : ConstantPool} {m : Method} {attributes : List Attribute}

theorem Attributed.exists_decodes (h : m.Attributed pool attributes) (part : Place) {name : String}
    (hp : part.attributeName? = some name) (hhas : m.has part = true) :
    ∃ item ∈ attributes, m.Decodes pool part item :=
  exists_mem_of_forall₂ h.decodes ((h.parts part name hp).1 hhas)

theorem Attributed.exists_readable (h : m.Attributed pool attributes) {body : Body}
    (hbody : m.body = some body) :
    ∃ item ∈ attributes, ∃ frame parts, body.Readable pool frame parts ∧
      (bodyPayload frame parts.flatten body).length ≤ item.payload.length := by
  obtain ⟨item, hmem, -, body', hbody', hr⟩ := h.exists_decodes .body rfl
    (by simp [has, hbody])
  obtain rfl : body = body' := Option.some.inj (hbody.symm.trans hbody')
  obtain ⟨_, rest, hpayload, frame, parts, rfl, hreadable⟩ :=
    ((Body.reads_read pool).parse_eq_ok_iff _ _).1 hr
  refine ⟨item, hmem, frame, parts, hreadable, ?_⟩
  rw [hpayload, List.length_append]
  exact Nat.le_add_right _ _

theorem rereadable_of_decode {es : List AnnotationEntry} {item : Attribute}
    (h : Annotations.decode pool item.payload = .ok es) (hf : item.Fits) :
    Annotations.Rereadable es := by
  obtain ⟨hlength, helements, hpayload⟩ := Annotations.readable_of_decode h
  exact ⟨hlength, helements, hpayload ▸ hf⟩

theorem Attributed.rereadable (h : m.Attributed pool attributes)
    (hf : Attribute.AllFit attributes) : m.Rereadable pool := by
  have hwritten := h.written_eq
  refine ⟨?_, ?_, ?_, ?_, ?_, ?_⟩
  · intro body hbody pool' frame parts hle hframe hparts
    obtain ⟨item, hmem, frame', parts', hreadable, hlength⟩ := h.exists_readable hbody
    obtain ⟨rfl, rfl, hsame⟩ := hreadable.reread_eq hframe hparts
    rw [hsame]
    exact ⟨hreadable.mono hle, Nat.lt_of_le_of_lt hlength (hf.2 item hmem)⟩
  · intro es hes
    obtain ⟨item, hmem, -, es', hes', hr⟩ := h.exists_decodes .visible rfl
      (by simp [has, hes])
    obtain rfl : es = es' := Option.some.inj (hes.symm.trans hes')
    exact rereadable_of_decode hr (hf.2 item hmem)
  · intro es hes
    obtain ⟨item, hmem, -, es', hes', hr⟩ := h.exists_decodes .invisible rfl
      (by simp [has, hes])
    obtain rfl : es = es' := Option.some.inj (hes.symm.trans hes')
    exact rereadable_of_decode hr (hf.2 item hmem)
  · intro kept hkept
    obtain ⟨item, hmem, rfl, hname⟩ := exists_mem_of_forall₂ h.decodes hkept
    exact ⟨hf.2 item hmem, hname⟩
  · rw [hwritten]
    exact h.ordered
  · rw [hwritten, h.decodes.length_eq]
    exact hf.1

theorem Attributed.eq_of_readBack (h : m.Attributed pool attributes) {pool' : ConstantPool}
    {m' : Method} (hback : m.ReadBack pool' m') : m' = m := by
  have hbody : m'.body = m.body := by
    cases hb : m.body with
    | none => simpa [hb] using hback.isSome_body
    | some body =>
      obtain ⟨frame, parts, hframe, hparts, hbody'⟩ := hback.body body hb
      obtain ⟨_, _, _, _, hreadable, _⟩ := h.exists_readable hb
      rw [hbody', (hreadable.reread_eq hframe hparts).2.2]
  obtain ⟨access, name, descriptor, visible, invisible, order, -, -⟩ := hback
  rw [h.written_eq] at order
  cases m
  cases m'
  simp only [Method.mk.injEq]
  exact ⟨access, name, descriptor, hbody, visible, invisible, order⟩

end Method

/-! ## Counts -/

/-- What an edit adds to in a method fits the field it is counted or measured in. -/
structure Method.CountsFit (m : Method) : Prop where
  attributes : m.written.length ≤ 65535
  entries : (m.invisible.getD []).length ≤ 65535
  payload : Annotations.payloadLength (m.invisible.getD []) < 4294967296

/-- No length and no count of an edited class exceeds its field. The lists that no edit touches
are as they were read; a text may have grown, as there are longer forms that are read. -/
structure ClassFile.CountsFit (c : ClassFile) : Prop where
  texts : ∀ text ∈ c.texts, ModifiedUtf8.Fits text
  methods : ∀ m ∈ c.methods, m.CountsFit

instance (m : Method) : Decidable m.CountsFit :=
  decidable_of_iff (_ ∧ _ ∧ _) ⟨fun h => ⟨h.1, h.2.1, h.2.2⟩, fun h => ⟨h.1, h.2, h.3⟩⟩

instance (c : ClassFile) : Decidable c.CountsFit :=
  decidable_of_iff (_ ∧ _) ⟨fun h => ⟨h.1, h.2⟩, fun h => ⟨h.1, h.2⟩⟩

/-! ## Forwarded methods -/

namespace Forwarding

section Forwarded

variable {pool : ConstantPool} {m : Method} {attributes : List Attribute} {target : String}
  {d : MethodDescriptor}

/-- The places that a forwarded method has and did not have before. -/
def newPlaces (m : Method) : List Place :=
  [.body, .invisible].filter fun place => !m.order.contains place

theorem written_forward (h : m.Attributed pool attributes) :
    (forward target m d).written = m.order ++ newPlaces m := by
  have hkept : m.order.filter (forward target m d).has = m.order := by
    rw [List.filter_eq_self]
    intro place hplace
    obtain ⟨item, -, hdecodes⟩ := exists_mem_of_forall₂ h.decodes hplace
    have hhas := hdecodes.has
    cases place <;> first | rfl | exact hhas
  have hvisible : Place.visible ∉ m.order → (forward target m d).has .visible = false := by
    intro hnot
    rw [Bool.eq_false_iff]
    exact fun hhas => hnot ((h.parts .visible visibleName rfl).1 hhas)
  have hplaces : (forward target m d).places = m.order ++
      [.body, .visible, .invisible].filter fun place => !m.order.contains place := rfl
  have hbody : (forward target m d).has .body = true := rfl
  have hinvisible : (forward target m d).has .invisible = true := rfl
  rw [Method.written, hplaces, List.filter_append, hkept, newPlaces]
  congr 1
  by_cases h1 : Place.body ∈ m.order <;> by_cases h2 : Place.visible ∈ m.order <;>
    by_cases h3 : Place.invisible ∈ m.order <;> simp [h1, h2, h3, hbody, hinvisible, hvisible]

theorem ordered_newPlaces (h : Method.Ordered pool m.order.reverse) :
    Method.Ordered pool (m.order ++ newPlaces m).reverse := by
  rw [List.reverse_append, newPlaces]
  by_cases h1 : Place.body ∈ m.order <;> by_cases h2 : Place.invisible ∈ m.order <;>
    simp [h1, h2, h, Method.Ordered, Method.Admits]

theorem rereadable_forward (h : m.Attributed pool attributes) (hf : Attribute.AllFit attributes)
    (hd : MethodDescriptor.ofString m.descriptor = .ok d)
    (hdescriptor : ModifiedUtf8.Fits m.descriptor) (hcounts : (forward target m d).CountsFit) :
    (forward target m d).Rereadable pool := by
  have hm := h.rereadable hf
  refine ⟨?_, hm.visible, ?_, hm.others, ?_, hcounts.attributes⟩
  · rintro body ⟨rfl⟩
    exact rereadable_instructions target hd hdescriptor
  · rintro es ⟨rfl⟩
    refine ⟨hcounts.entries, ?_, hcounts.payload⟩
    rw [List.forall_mem_append]
    refine ⟨?_, ?_⟩
    · cases hi : m.invisible with
      | none => simp
      | some es => exact (hm.invisible es hi).elements
    · rw [List.forall_mem_singleton]
      exact ⟨0, 0, [], [], rfl, rfl, .nil⟩
  · rw [written_forward h]
    exact ordered_newPlaces h.ordered

end Forwarded

/-! ## Edited classes -/

theorem rereadable_edit {octets : Bytes} {c : ClassFile} {p : Preferences} {s : Settings}
    {label : String} (hread : ClassFile.read octets = .ok c)
    (h : (edit p s label c).failure = none) (hcounts : (edit p s label c).classFile.CountsFit) :
    (edit p s label c).classFile.Rereadable := by
  obtain ⟨l, hl, hd⟩ := ClassFile.read_eq_ok_iff.1 hread
  obtain ⟨-, hf⟩ := ClassLayout.parse_eq_ok_iff.1 hl
  obtain ⟨methods, hclass, hmethods⟩ := edit_methods h
  rw [hclass] at hcounts ⊢
  have hlayouts := forall₂_join (List.Forall₂.flip hd.methods) hmethods
  refine ⟨?_, hcounts.texts, ?_, ?_, ⟨?_, ?_⟩, ?_⟩
  · rw [hd.pool]
    exact hf.pool
  · rw [hd.interfaces]
    exact hf.interfaces
  · rw [hd.fields]
    exact hf.fields
  · rw [← hlayouts.length_eq]
    exact hf.methods.1
  · have hall := (List.forall₂_and_left _ _).2 ⟨hf.methods.2, hlayouts⟩
    have hback := forall_mem_right_of_forall₂ hall
      (Q := fun m' => ModifiedUtf8.Fits m'.descriptor → m'.CountsFit → m'.Rereadable c.pool) ?_
    · intro m' hm'
      have htext : m'.descriptor ∈ ({ c with methods := methods } : ClassFile).texts := by
        simp only [ClassFile.texts, List.mem_cons, List.mem_append, List.mem_flatMap]
        exact .inr (.inr ⟨m', hm', by simp [Method.texts]⟩)
      exact hback m' hm' (hcounts.texts _ htext) (hcounts.methods m' hm')
    rintro l' m' ⟨hfits, m, hdescribes, hm⟩ htext hcount
    rw [hd.pool]
    -- a method that was acted on has a new body and a longer list, any other is as it was read
    unfold Edited at hm
    split at hm
    · obtain ⟨d, segment, hdescriptor, -, rfl⟩ := forward?_eq_ok hm
      exact rereadable_forward hdescribes.attributes hfits hdescriptor htext hcount
    · rw [hm]
      exact hdescribes.attributes.rereadable hfits
  · rw [hd.attributes]
    exact hf.attributes

end Forwarding

/-- The constant under an index is a method of a class, with its name and descriptor. -/
def ConstantPool.IsMethod (pool : ConstantPool) (index : UInt16) (owner name descriptor : String) :
    Prop :=
  ∃ ownerIndex nameAndTypeIndex nameIndex descriptorIndex,
    pool.get index = .ok (.methodRef ownerIndex nameAndTypeIndex) ∧
      pool.className ownerIndex = .ok owner ∧
      pool.get nameAndTypeIndex = .ok (.nameAndType nameIndex descriptorIndex) ∧
      pool.text nameIndex = .ok name ∧ pool.text descriptorIndex = .ok descriptor

theorem ConstantPool.IsFirstMethod.isMethod {pool : ConstantPool} {index : UInt16}
    {owner name descriptor : String} (h : pool.IsFirstMethod index owner name descriptor false) :
    pool.IsMethod index owner name descriptor := by
  obtain ⟨ownerIndex, howner, nameAndTypeIndex,
    ⟨nameIndex, hname, descriptorIndex, hdescriptor, hnameAndType⟩, hmethod⟩ := h
  exact ⟨ownerIndex, nameAndTypeIndex, nameIndex, descriptorIndex,
    get_eq_ok_iff.2 ⟨hmethod.1, by simp⟩, howner.className,
    get_eq_ok_iff.2 ⟨hnameAndType.1, by simp⟩, hname.text, hdescriptor.text⟩

namespace Forwarding

/-- `m'` is read for the method `m` of the class `owner` after it was passed on to the class for
the platform. -/
structure ReadForwarded (p : Preferences) (s : Settings) (owner : String) (pool : ConstantPool)
    (m m' : Method) : Prop where
  access : m'.access = m.access
  name : m'.name = m.name
  descriptor : m'.descriptor = m.descriptor
  visible : m'.visible = m.visible
  invisible : m'.invisible = some (m.invisible.getD [] ++ [.marker Marker.done])
  order : m'.order = m.order ++ newPlaces m
  body : ∃ d segment stack locals loads index,
    MethodDescriptor.ofString m.descriptor = .ok d ∧ segment? p s = some segment ∧
      LoadOctets d.parameters loads ∧
      pool.IsMethod index (implementationName owner segment) m.name m.descriptor ∧
      stack.toNat = max (JvmType.totalSlots d.parameters) d.returnType.kind.slots ∧
      locals.toNat = JvmType.totalSlots d.parameters ∧
      m'.body = some {
        frame := some ⟨stack, locals⟩
        instructions := (loads ++ [0xb8 :: be16 index, [d.returnType.kind.returnOpcode]]).map .raw
        handlers := []
        attributes := [] }

theorem readForwarded_of_readBack {p : Preferences} {s : Settings} {owner : String}
    {pool pool' : ConstantPool} {m m' m'' : Method} {attributes : List Attribute}
    (ha : m.Attributed pool attributes) (hstatic : m.isStatic = true)
    (h : forward? p s owner m = .ok m')
    (hslots : SlotsFit m) (hback : m'.ReadBack pool' m'') : ReadForwarded p s owner pool' m m'' := by
  obtain ⟨d, segment, hd, hsegment, rfl⟩ := forward?_eq_ok h
  have hslots := hslots d hd
  obtain ⟨frame, parts, hframe, hparts, hbody⟩ := hback.body _ rfl
  obtain ⟨loads, index, hloads, hindex, rfl⟩ := isEncoded_instructions hslots hparts
  have hcompute := compute_instructions (m := forward (implementationName owner segment) m d)
    (implementationName owner segment) hd hstatic hslots
  obtain rfl := Except.ok.inj (hcompute.symm.trans hframe)
  have hkind := d.returnType.kind.slots_le
  refine ⟨hback.access, hback.name, hback.descriptor, hback.visible, hback.invisible, ?_,
    d, segment, _, _, loads, index, hd, hsegment, hloads, hindex.isMethod, toNat_ofNat16 (by omega),
    toNat_ofNat16 hslots, hbody⟩
  rw [hback.order, written_forward ha]

/-- A class that was read, edited and written is read again with the methods that were acted on
forwarded, and everything else as it was; the pool has only grown. -/
theorem read_write_edit {octets octets' : Bytes} {c : ClassFile} {p : Preferences} {s : Settings}
    {label : String} (hread : ClassFile.read octets = .ok c)
    (h : (edit p s label c).failure = none) (hcounts : (edit p s label c).classFile.CountsFit)
    (hslots : ∀ m ∈ c.methods, ActsOn s m → SlotsFit m)
    (hwrite : (edit p s label c).classFile.write = .ok octets') :
    ∃ c', ClassFile.read octets' = .ok c' ∧
      c'.minor = c.minor ∧ c'.major = c.major ∧ c'.access = c.access ∧ c'.name = c.name ∧
      c'.superName = c.superName ∧ c'.interfaces = c.interfaces ∧ c'.fields = c.fields ∧
      c'.attributes = c.attributes ∧ c.pool.entries.toList <+: c'.pool.entries.toList ∧
      List.Forall₂ (fun m m' => if ActsOn s m then ReadForwarded p s c.name c'.pool m m'
        else m' = m) c.methods c'.methods := by
  obtain ⟨l, hl, hd⟩ := ClassFile.read_eq_ok_iff.1 hread
  obtain ⟨methods, hclass, hmethods⟩ := edit_methods h
  obtain ⟨-, c', -, -, -, hback, hread'⟩ :=
    ClassFile.read_of_write (rereadable_edit hread h hcounts) hwrite
  rw [hclass] at hback
  refine ⟨c', hread', hback.minor, hback.major, hback.access, hback.name, hback.superName,
    hback.interfaces, hback.fields, hback.attributes, hback.pool, ?_⟩
  have hattributed := forall_mem_right_of_forall₂ hd.methods
    (Q := fun m => ∃ attributes, m.Attributed l.pool attributes) fun _ _ hm => ⟨_, hm.attributes⟩
  have hjoined : List.Forall₂ (fun m m'' => ∃ m', Edited p s c.name m m' ∧
      m'.ReadBack c'.pool m'') c.methods c'.methods :=
    forall₂_join (List.Forall₂.flip hmethods) hback.methods
  have hall := (List.forall₂_and_left _ _).2 ⟨fun m hm => And.intro (hattributed m hm) (hslots m hm),
    hjoined⟩
  refine hall.imp ?_
  rintro m m'' ⟨⟨⟨attributes, ha⟩, hslots⟩, m', hm, hback'⟩
  unfold Edited at hm
  by_cases hacted : ActsOn s m
  · rw [if_pos hacted] at hm ⊢
    exact readForwarded_of_readBack ha hacted.2.2 hm (hslots hacted) hback'
  · rw [if_neg hacted] at hm ⊢
    rw [hm] at hback'
    exact ha.eq_of_readBack hback'

theorem exists_write_edit_sample :
    ∃ octets, (edit .none (ofPlatform "quilt") "a/B" .sample).classFile.write = .ok octets := by
  have hok : (edit .none (ofPlatform "quilt") "a/B" .sample).classFile.write.isOk = true := by
    decide +kernel
  cases h : (edit .none (ofPlatform "quilt") "a/B" .sample).classFile.write with
  | ok octets => exact ⟨octets, rfl⟩
  | error e =>
    rw [h] at hok
    cases hok

theorem read_write_edit_sample :
    ∃ octets, (edit .none (ofPlatform "quilt") "a/B" .sample).classFile.write = .ok octets ∧
      ∃ c', ClassFile.read octets = .ok c' ∧
        c'.minor = 0 ∧ c'.major = 52 ∧ c'.access = 0x21 ∧ c'.name = "a/B" ∧
        c'.superName = some "java/lang/Object" ∧ c'.interfaces = [] ∧ c'.fields = [] ∧
        c'.attributes = [] ∧ ClassLayout.sample.pool.entries.toList <+: c'.pool.entries.toList ∧
        List.Forall₂ (fun m m' => if ActsOn (ofPlatform "quilt") m then
          ReadForwarded .none (ofPlatform "quilt") "a/B" c'.pool m m' else m' = m)
          ClassFile.sample.methods c'.methods := by
  obtain ⟨octets, h⟩ := exists_write_edit_sample
  exact ⟨octets, h, read_write_edit ClassFile.read_sample (by decide +kernel) (by decide +kernel)
    (by decide +kernel) h⟩

end Forwarding

end PlatformLink
