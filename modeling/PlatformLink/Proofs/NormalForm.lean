import PlatformLink.Proofs.ProducedClasses

/-! # Written classes are in normal form

What is read from the octets of a class is written in the same octets again, and its pool gains no
entry (`ClassFile.write_read_write`). The class that was written may have had symbolic
instructions, bodies without a frame and parts without a place; what has to be shown is that none of
this can be seen in the octets:

* the attributes say which places they were written at (`Method.eq_of_suits`);
* a body ends where its payload ends, however its code is cut (`BodyLayout.reads_read`);
* every index is the smallest one in the pool that was written, and stays so.
-/

namespace PlatformLink
set_option autoImplicit false

open Reader

/-! ## Places are found again -/

/-- The attribute may stand at the place by its name, or is the one that is carried through. -/
structure Place.Suits (pool : ConstantPool) (place : Place) (item : Attribute) : Prop where
  name : ∀ name, place.attributeName? = some name → pool.text item.name = .ok name
  other : place.attributeName? = none → place = .other item

namespace Method

theorem attributeName?_inj {place place' : Place} {name : String}
    (h : place.attributeName? = some name) (h' : place'.attributeName? = some name) :
    place = place' := by
  cases place with
  | other kept => cases h
  | _ =>
    cases h
    cases place' with
    | other kept => cases h'
    | _ => first | rfl | exact absurd h' (by decide)

theorem Admits.not_mem {pool : ConstantPool} {before : List Place} {place : Place} {name : String}
    (h : Admits pool before place) (hp : place.attributeName? = some name) : place ∉ before := by
  cases place with
  | other kept => cases hp
  | _ => exact h

/-- Some attributes stand at one list of places only; the last ones are in front. -/
theorem eq_of_suits {pool : ConstantPool} {places places' : List Place} {items : List Attribute}
    (h : List.Forall₂ (Place.Suits pool) places items)
    (h' : List.Forall₂ (Place.Suits pool) places' items)
    (ho : Ordered pool places) (ho' : Ordered pool places') : places = places' := by
  induction h generalizing places' with
  | nil =>
    cases h'
    rfl
  | @cons place item before items hplace _ ih =>
    cases h' with
    | @cons place' _ before' _ hplace' hbefore' =>
      obtain rfl : before = before' := ih hbefore' ho.2 ho'.2
      congr 1
      -- of two places for one attribute both are parts or neither is: an attribute is carried
      -- through under the name of a part only where that part stands before
      cases hn : place.attributeName? with
      | none =>
        rw [hplace.other hn] at ho ⊢
        cases hn' : place'.attributeName? with
        | none => exact (hplace'.other hn').symm
        | some name =>
          have hbefore := ho.1 place' name hn' (hplace'.name name hn')
          exact absurd hbefore (ho'.1.not_mem hn')
      | some name =>
        cases hn' : place'.attributeName? with
        | none =>
          rw [hplace'.other hn'] at ho'
          have hbefore := ho'.1 place name hn (hplace.name name hn)
          exact absurd hbefore (ho.1.not_mem hn)
        | some name' =>
          have hsame := (hplace.name name hn).symm.trans (hplace'.name name' hn')
          obtain rfl : name = name' := Except.ok.inj hsame
          exact attributeName?_inj hn hn'

theorem Decodes.suits {pool : ConstantPool} {m : Method} {place : Place} {item : Attribute}
    (h : m.Decodes pool place item) : place.Suits pool item := by
  cases place with
  | other kept =>
    refine ⟨fun name hn => ?_, fun _ => by rw [h.1]⟩
    cases hn
  | _ =>
    refine ⟨fun name hn => ?_, fun hn => ?_⟩
    · cases hn
      exact h.1
    · cases hn

theorem Writes.suits {pool : ConstantPool} {m : Method} {place : Place} {item : Attribute}
    (h : m.Writes pool place item) : place.Suits pool item := by
  cases place with
  | other kept =>
    refine ⟨fun name hn => ?_, fun _ => congrArg Place.other h.symm⟩
    cases hn
  | _ =>
    obtain ⟨_, -, hholds⟩ := h
    refine ⟨fun name hn => ?_, fun hn => ?_⟩
    · cases hn
      exact hholds.name.text
    · cases hn

end Method

/-! ## Bodies are found again -/

/-- A body with its code as one array of octets. -/
structure BodyLayout where
  frame : FrameSize
  code : Bytes
  handlers : List Handler
  attributes : List Attribute
  deriving DecidableEq, Repr

namespace BodyLayout

def encode (l : BodyLayout) : Bytes :=
  Method.bodyPayload l.frame l.code ⟨l.frame, [], l.handlers, l.attributes⟩

structure Fits (l : BodyLayout) : Prop where
  code : l.code.length < 4294967296
  handlers : l.handlers.length ≤ 65535
  attributes : Attribute.AllFit l.attributes

def read : Reader BodyLayout := do
  let stack ← Reader.u16
  let locals ← Reader.u16
  let length ← Reader.u32
  let code ← Reader.take length.toNat
  let handlers ← Reader.counted16 Handler.read
  let attributes ← Attribute.readAll
  return ⟨⟨stack, locals⟩, code, handlers, attributes⟩

theorem reads_read : Reads read fun word l => word = l.encode ∧ l.Fits := by
  have h := Reads.u16.bind_word fun stack => Reads.u16.bind_word fun locals =>
    Reads.u32.bind_word fun length => (Reads.take length.toNat).bind_valid fun code =>
      Handler.reads_read.counted16_words.bind_valid fun handlers =>
        Attribute.reads_readAll.map (BodyLayout.mk ⟨stack, locals⟩ code handlers)
  refine h.congr fun word l => ?_
  constructor
  · rintro ⟨stack, _, rfl, locals, _, rfl, length, _, rfl, code, _, rfl, hl, handlers, _, rfl, hh,
      attributes, ⟨rfl, ha⟩, rfl⟩
    have hlt := length.toNat_lt
    refine ⟨?_, ?_, hh, ha⟩
    · rw [encode, Method.bodyPayload, hl, count32_toNat, List.append_assoc]
    · rw [hl]
      exact hlt
  · rintro ⟨rfl, hc, hh, ha⟩
    have hl := (toNat_ofNat32 hc).symm
    have hword : l.encode = be16 l.frame.stack ++ (be16 l.frame.locals ++
        (count32 l.code.length ++ (l.code ++
          ((count16 l.handlers.length ++ l.handlers.flatMap Handler.encode) ++
            Attribute.encodeAll l.attributes)))) := by
      rw [encode, Method.bodyPayload, List.append_assoc]
    exact ⟨l.frame.stack, _, hword, l.frame.locals, _, rfl, UInt32.ofNat l.code.length, _, rfl,
      l.code, _, rfl, hl, l.handlers, _, rfl, hh, l.attributes, ⟨rfl, ha⟩, rfl⟩

end BodyLayout

theorem Body.Readable.fits {pool : ConstantPool} {frame : FrameSize} {parts : List Bytes}
    {body : Body} (h : body.Readable pool frame parts) :
    BodyLayout.Fits ⟨frame, parts.flatten, body.handlers, body.attributes⟩ :=
  ⟨h.length, h.handlers, h.attributes⟩

/-! ## Lengths and counts that fit -/

/-- No length and no count in what is written for a method, over the pool of the class, is too
large for its field. -/
structure Method.Untruncated (pool : ConstantPool) (m : Method) : Prop where
  count : m.written.length ≤ 65535
  payloads : ∀ place ∈ m.written, ∀ items, (m.attributeAt place pool).1 = .ok items →
    ∀ item ∈ items, item.Fits
  visible : (m.visible.getD []).length ≤ 65535
  invisible : (m.invisible.getD []).length ≤ 65535
  handlers : (m.body.getD .empty).handlers.length ≤ 65535
  attributes : Attribute.AllFit (m.body.getD .empty).attributes

/-- No length and no count in what is written for a class is too large for its field. -/
structure ClassFile.Untruncated (c : ClassFile) : Prop where
  texts : ∀ text ∈ c.texts, ModifiedUtf8.Fits text
  interfaces : c.interfaces.length ≤ 65535
  fields : c.fields.length ≤ 65535 ∧ ∀ f ∈ c.fields, f.Fits
  methods : c.methods.length ≤ 65535 ∧
    ∀ m ∈ c.methods, m.Untruncated (c.encodeMembers.run.run c.pool).2
  attributes : Attribute.AllFit c.attributes

instance (a : Attribute) : Decidable a.Fits := inferInstanceAs (Decidable (_ < _))

instance (as : List Attribute) : Decidable (Attribute.AllFit as) :=
  inferInstanceAs (Decidable (_ ∧ _))

instance (f : Field) : Decidable f.Fits := inferInstanceAs (Decidable (Attribute.AllFit _))

instance decidableForallOk {ε α : Type} (P : α → Prop) [DecidablePred P] (e : Except ε α) :
    Decidable (∀ a, e = .ok a → P a) :=
  match e with
  | .ok a => decidable_of_iff (P a) ⟨fun h _ ha => Except.ok.inj ha ▸ h, fun h => h a rfl⟩
  | .error _ => isTrue fun _ h => by cases h

instance (pool : ConstantPool) (m : Method) : Decidable (m.Untruncated pool) :=
  decidable_of_iff (_ ∧ _ ∧ _ ∧ _ ∧ _ ∧ _)
    ⟨fun h => ⟨h.1, h.2.1, h.2.2.1, h.2.2.2.1, h.2.2.2.2.1, h.2.2.2.2.2⟩,
      fun h => ⟨h.1, h.2, h.3, h.4, h.5, h.6⟩⟩

instance (c : ClassFile) : Decidable c.Untruncated :=
  decidable_of_iff (_ ∧ _ ∧ _ ∧ _ ∧ _)
    ⟨fun h => ⟨h.1, h.2.1, h.2.2.1, h.2.2.2.1, h.2.2.2.2⟩, fun h => ⟨h.1, h.2, h.3, h.4, h.5⟩⟩

/-! ## Methods -/

namespace Method

theorem Untruncated.fits {pool : ConstantPool} {m : Method} (h : m.Untruncated pool) {place : Place}
    {item : Attribute} (hmem : place ∈ m.written) (hw : m.Writes pool place item) : item.Fits := by
  obtain ⟨-, hhas⟩ := List.mem_filter.1 hmem
  have hitem : if m.has place then ∃ found, [item] = [found] ∧ m.Writes pool place found
      else [item] = [] := by
    rw [if_pos hhas]
    exact ⟨item, rfl, hw⟩
  have hsettled := (spec_attributeAt m place).settled hitem
  exact h.payloads place hmem [item] (by rw [hsettled]) item List.mem_cons_self

theorem writes_body {pool : ConstantPool} {m m' : Method} {item : Attribute}
    (h : m.Untruncated pool) (hf : item.Fits) (hw : m.Writes pool .body item)
    (hd : m'.Decodes pool .body item) : m'.Writes pool .body item := by
  obtain ⟨body, hbody, hname, frame, parts, hframe, hparts, hpayload⟩ := hw
  obtain ⟨-, body', hbody', hr⟩ := hd
  obtain ⟨_, rest, hrest, frame', parts', rfl, hreadable⟩ :=
    ((Body.reads_read pool).parse_eq_ok_iff _ _).1 hr
  have hfits : BodyLayout.Fits ⟨frame, parts.flatten, body.handlers, body.attributes⟩ := by
    have hhandlers := h.handlers
    have hattributes := h.attributes
    rw [hbody] at hhandlers hattributes
    refine ⟨?_, hhandlers, hattributes⟩
    unfold Attribute.Fits at hf
    rw [hpayload] at hf
    simp only [bodyPayload, List.length_append] at hf
    show parts.flatten.length < 4294967296
    omega
  -- the octets hold the code as one array, so it does not matter how it is cut
  have hoctets : bodyPayload frame parts.flatten body ++ [] =
      bodyPayload frame' parts'.flatten body' ++ rest := by
    rw [List.append_nil, ← hpayload, hrest]
  obtain ⟨-, hword, -⟩ :=
    BodyLayout.reads_read.det ⟨rfl, hfits⟩ ⟨rfl, hreadable.fits⟩ hoctets
  refine ⟨body', hbody', hname, frame', parts', ?_, ?_, hpayload.trans hword⟩
  · rw [frameOf, hreadable.frame]
  · rw [hreadable.instructions]
    exact Instruction.forall₂_isEncoded_raw_iff.2 rfl

theorem eq_of_holdsEntries {pool : ConstantPool} {name : String} {es es' : List AnnotationEntry}
    {item : Attribute} (h : item.HoldsEntries pool name es) (hl : es.length ≤ 65535)
    (he : ∀ e ∈ es, Annotations.IsElements e.elements)
    (hr : Annotations.decode pool item.payload = .ok es') : es = es' := by
  obtain ⟨ls, hpayload, hls⟩ := h.payload
  have hdecode := Annotations.decode_of_isWritten hls hl he
  rw [← hpayload, hr] at hdecode
  exact (Except.ok.inj hdecode).symm

/-- What was written at a place, and is read there, is written there again. -/
theorem Untruncated.writes {pool pool₀ : ConstantPool} {m m' : Method} (h : m.Untruncated pool)
    (hm : m.Regular pool₀) {place : Place} {item : Attribute} (hmem : place ∈ m.written)
    (hw : m.Writes pool place item) (hd : m'.Decodes pool place item) :
    m'.Writes pool place item := by
  have hf := h.fits hmem hw
  cases place with
  | body => exact writes_body h hf hw hd
  | visible =>
    obtain ⟨es, hes, hholds⟩ := hw
    obtain ⟨-, es', hes', hr⟩ := hd
    have hlength := h.visible
    rw [hes] at hlength
    obtain rfl := eq_of_holdsEntries hholds hlength (hm.visible es hes) hr
    exact ⟨es, hes', hholds⟩
  | invisible =>
    obtain ⟨es, hes, hholds⟩ := hw
    obtain ⟨-, es', hes', hr⟩ := hd
    have hlength := h.invisible
    rw [hes] at hlength
    obtain rfl := eq_of_holdsEntries hholds hlength (hm.invisible es hes) hr
    exact ⟨es, hes', hholds⟩
  | other kept => exact hw

theorem Regular.order_eq {pool pool₀ : ConstantPool} {m m' : Method} {items : List Attribute}
    (h : m.Regular pool₀) (hle : pool₀ ≤ pool) (hw : List.Forall₂ (m.Writes pool) m.written items)
    (hd : m'.Attributed pool items) : m'.order = m.written := by
  have hordered : Ordered pool m.written.reverse := by
    refine h.ordered_written.mono hle fun kept hkept => h.named kept ?_
    exact other_mem_order (List.mem_reverse.1 hkept)
  have hread := List.forall₂_reverse_iff.2 (hd.decodes.imp fun _ _ hp => hp.suits)
  have hwrite := List.forall₂_reverse_iff.2 (hw.imp fun _ _ hp => Writes.suits hp)
  exact List.reverse_injective (eq_of_suits hread hwrite hd.ordered hordered)

end Method

theorem MethodLayout.IsWritten.of_describes {pool pool₀ : ConstantPool} {m m' : Method}
    {l : MethodLayout} (hw : l.IsWritten pool m) (hd : l.Describes pool m')
    (hm : m.Regular pool₀) (hle : pool₀ ≤ pool) (h : m.Untruncated pool) :
    l.IsWritten pool m' := by
  have horder := hm.order_eq hle hw.attributes hd.attributes
  have hdecodes := hd.attributes.decodes
  rw [horder] at hdecodes
  refine ⟨hd.access.symm, ?_, ?_, ?_⟩
  · rw [Except.ok.inj (hd.name.symm.trans hw.name.text)]
    exact hw.name
  · rw [Except.ok.inj (hd.descriptor.symm.trans hw.descriptor.text)]
    exact hw.descriptor
  · rw [hd.attributes.written_eq, horder]
    have hboth := (List.forall₂_and_left _ _).2 ⟨fun place hp => hp, hw.attributes⟩
    refine List.Forall₂.mp ?_ hdecodes hboth
    exact fun place item hread hwrite => h.writes hm hwrite.1 hwrite.2 hread

theorem MethodLayout.IsWritten.fits_of_untruncated {pool : ConstantPool} {m : Method} {l : MethodLayout}
    (hw : l.IsWritten pool m) (h : m.Untruncated pool) : l.Fits := by
  have hboth := (List.forall₂_and_left _ _).2 ⟨fun place hp => hp, hw.attributes⟩
  refine ⟨hw.attributes.length_eq ▸ h.count, ?_⟩
  exact forall_mem_right_of_forall₂ hboth fun place item hplace => h.fits hplace.1 hplace.2

/-! ## Classes -/

namespace ClassFile

theorem eq_of_superName {pool : ConstantPool} {index : UInt16} {name name' : Option String}
    (h : SuperName pool index name) (h' : SuperName pool index name') : name = name' := by
  cases name with
  | none =>
    cases name' with
    | none => rfl
    | some name' => exact absurd h h'.1
  | some name =>
    cases name' with
    | none => exact absurd h' h.1
    | some name' => rw [Except.ok.inj (h.2.symm.trans h'.2)]

theorem Untruncated.fits {c : ClassFile} {l : ClassLayout} (h : c.Untruncated) (hc : c.Regular)
    (hpool : l.pool = (c.encodeMembers.run.run c.pool).2) (hl : l.IsWritten c) : l.Fits := by
  refine ⟨?_, ?_, ?_, ⟨hl.methods.length_eq ▸ h.methods.1, ?_⟩, ?_⟩
  · rw [hpool]
    exact slotted_of_write h.texts hc.pool
  · rw [hl.interfaces]
    exact h.interfaces
  · rw [hl.fields]
    exact h.fields
  · refine forall_mem_of_forall₂ hl.methods (fun m l' hw hm => ?_) h.methods.2
    rw [← hpool] at hm
    exact hw.fits_of_untruncated hm
  · rw [hl.attributes]
    exact h.attributes

theorem Untruncated.isWritten {c c' : ClassFile} {l : ClassLayout} (h : c.Untruncated)
    (hc : c.Regular) (hpool : l.pool = (c.encodeMembers.run.run c.pool).2) (hle : c.pool ≤ l.pool)
    (hl : l.IsWritten c) (hd : l.Describes c') : l.IsWritten c' := by
  have hname := Except.ok.inj (hd.name.symm.trans hl.name.className)
  have hsuper : c'.superName = c.superName := eq_of_superName hd.superName hl.superName.superName
  refine ⟨hd.minor.symm, hd.major.symm, hd.access.symm, ?_, ?_, hd.interfaces.symm, hd.fields.symm,
    ?_, hd.attributes.symm⟩
  · rw [hname]
    exact hl.name
  · rw [hsuper]
    exact hl.superName
  · have hmethods := (List.forall₂_and_left _ _).2
      ⟨fun m hm => And.intro (hc.methods m hm) (h.methods.2 m hm), hl.methods⟩
    rw [← hpool] at hmethods
    have hagain := forall_mem_right_of_forall₂ hmethods (Q := fun l' => ∀ m',
      l'.Describes l.pool m' → l'.IsWritten l.pool m') fun m l' hm m' hd =>
        hm.2.of_describes hd hm.1.1 hle hm.1.2
    exact List.Forall₂.flip (((List.forall₂_and_left _ _).2 ⟨hagain, hd.methods⟩).imp
      fun l' m' hm => hm.1 m' hm.2)

/-- What is read from the octets of a class is written in the same octets, and its pool gains no
entry. -/
theorem write_read_write {c c' : ClassFile} {octets : Bytes} (hc : c.Produced)
    (h : c.Untruncated) (hw : c.write = .ok octets) (hr : read octets = .ok c') :
    c'.write = .ok octets ∧ (c'.encodeMembers.run.run c'.pool).2 = c'.pool := by
  obtain ⟨l, rfl, hpool, hle, hl⟩ := exists_isWritten_of_write hw
  obtain ⟨l', hl', hd⟩ := read_eq_ok_iff.1 hr
  -- octets have one layout only, so what was written is what is read
  have hfits := h.fits hc.regular hpool hl
  obtain rfl : l = l' := Except.ok.inj ((ClassLayout.parse_eq_ok_iff.2 ⟨rfl, hfits⟩).symm.trans hl')
  have hwritten := h.isWritten hc.regular hpool hle hl hd
  have hrun : c'.encodeMembers.run.run c'.pool = (.ok l.encodeMembers, c'.pool) :=
    (spec_encodeMembers c').settled ⟨l, hd.pool.symm, rfl, hwritten⟩
  exact ⟨write_of_isWritten hwritten hd.pool.symm, by rw [hrun]⟩

open Forwarding in
theorem write_read_write_sample :
    ∃ octets c', (edit .none (ofPlatform "quilt") "a/B" .sample).classFile.write = .ok octets ∧
      read octets = .ok c' ∧ c'.write = .ok octets ∧
        (c'.encodeMembers.run.run c'.pool).2 = c'.pool := by
  obtain ⟨octets, hw⟩ := exists_write_edit_sample
  obtain ⟨-, c', -, -, -, -, hr⟩ :=
    read_of_write (rereadable_edit read_sample (by decide +kernel) (by decide +kernel)) hw
  exact ⟨octets, c', hw, hr, write_read_write ((Produced.read read_sample).edit _ _ _)
    (by decide +kernel) hw hr⟩

end ClassFile

end PlatformLink
