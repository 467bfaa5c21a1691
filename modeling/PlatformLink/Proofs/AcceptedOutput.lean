import PlatformLink.Plan
import PlatformLink.Proofs.AcceptedPool
import PlatformLink.Proofs.ForwardingRoundTrip

/-! # Edited classes and the second grammar

The reader cuts attributes out by their lengths, the second grammar goes by their bodies alone.
Where both agree on the attributes that an edit carries over (`Acceptance.StandsAlone`), and the
class that was read was accepted, what is written for the edited class is accepted:
`Forwarding.accepts_write_edit`. The agreement is needed: `ClassFile.overlapping` is a class that
both accept, each with boundaries of its own, and its edit is refused.
-/

namespace PlatformLink
set_option autoImplicit false

theorem Attribute.length_encode_le {a : Attribute} {as : List Attribute} (h : a ∈ as) :
    a.encode.length ≤ (encodeAll as).length := by
  rw [encodeAll, List.length_append]
  exact Nat.le_trans (length_le_length_flatMap h) (Nat.le_add_left _ _)

namespace Acceptance

/-! ## Attributes -/

/-- Cut out by its length, the attribute is one of the second grammar to its last octet. -/
def StandsAlone (pool : ConstantPool) (a : Attribute) : Prop :=
  attributeWalk (slotsOf pool) (a.encode.length + 1) a.encode = some []

instance (pool : ConstantPool) (a : Attribute) : Decidable (StandsAlone pool a) :=
  inferInstanceAs (Decidable (_ = _))

/-- It stays one at any depth, and in a class whose pool has grown. -/
theorem StandsAlone.takes {pool pool' : ConstantPool} {a : Attribute} (h : StandsAlone pool a)
    (hle : pool ≤ pool') {depth : Nat} (hdepth : a.encode.length < depth) :
    Takes (attributeWalk (slotsOf pool') depth) a.encode :=
  (refines_attributeWalk (knows_of_le hle) hdepth).takes h

theorem takes_attribute {slots : Slots} {depth : Nat} {a : Attribute} {name : String} {form : Form}
    (hname : nameAt? slots a.name.toNat = some name) (hform : formOf? name = some form)
    (hfits : a.Fits)
    (hbody : Takes (formBody (attributeWalk slots depth) (elementValue depth) form) a.payload) :
    Takes (attributeWalk slots (depth + 1)) a.encode := by
  intro rest
  refine attributeWalk_eq_some_iff.2 ⟨a.name, UInt32.ofNat a.payload.length, a.payload ++ rest,
    name, form, ?_, hname, hform, fun _ => ?_, hbody rest⟩
  · simp only [Attribute.encode, count32, List.append_assoc]
  · rw [toNat_ofNat32 hfits, List.length_append]
    exact Nat.le_add_right _ _

theorem takes_holdsEntries {pool : ConstantPool} {name : String} {es : List AnnotationEntry}
    {item : Attribute} {depth : Nat} (h : item.HoldsEntries pool name es)
    (hes : Annotations.Rereadable es) (hform : formOf? name = some .entries)
    (hname : String.fromUTF8? (ByteArray.mk (ModifiedUtf8.encode name).toArray) = some name)
    (hfits : item.Fits) (hdepth : item.payload.length ≤ depth) :
    Takes (attributeWalk (slotsOf pool) (depth + 1)) item.encode := by
  obtain ⟨ls, hpayload, hls⟩ := h.payload
  have helements := AnnotationLayout.isElements_of_isWritten hls hes.elements
  refine takes_attribute (nameAt?_of_isFirstText h.name hname) hform hfits ?_
  rw [hpayload] at hdepth ⊢
  exact takes_listU16 (hls.length_eq ▸ hes.length) fun l hl => takes_entry (helements l hl)
    (Nat.le_trans (AnnotationLayout.length_encode_le hl) hdepth)

theorem takes_encodeAll {w : Walk} {as : List Attribute} (hlength : as.length ≤ 65535)
    (h : ∀ a ∈ as, Takes w a.encode) : Takes (listU16 w) (Attribute.encodeAll as) :=
  takes_listU16 hlength h

theorem takes_bodyPayload {inner value : Walk} {frame : FrameSize} {code : Bytes} {body : Body}
    (hcode : code.length < 4294967296) (hhandlers : body.handlers.length ≤ 65535)
    (hattributes : body.attributes.length ≤ 65535)
    (h : ∀ a ∈ body.attributes, Takes inner a.encode) :
    Takes (formBody inner value .code) (Method.bodyPayload frame code body) := by
  have hframe : Takes (skip 4) (be16 frame.stack ++ be16 frame.locals) := takes_skip rfl
  have hskip : Takes (withU32 skip) (count32 code.length ++ code) := by
    refine takes_withU32 (takes_skip ?_)
    rw [toNat_ofNat32 hcode]
  have htable : Takes (listU16 (skip 8))
      (count16 body.handlers.length ++ body.handlers.flatMap Handler.encode) :=
    takes_listU16 hhandlers fun _ _ => takes_skip rfl
  have hall := hframe.andThen (hskip.andThen (htable.andThen (takes_encodeAll hattributes h)))
  simpa only [formBody, Method.bodyPayload, List.append_assoc] using hall

end Acceptance

/-! ## Methods -/

def Place.kept? : Place → Option Attribute
  | .other kept => some kept
  | .body | .visible | .invisible => none

namespace Method

/-- The attributes of a method that are carried through, those in its body apart. -/
def keptAttributes (m : Method) : List Attribute := m.order.filterMap Place.kept?

def bodyAttributes (m : Method) : List Attribute := m.body.elim [] (·.attributes)

theorem mem_keptAttributes {m : Method} {kept : Attribute} :
    kept ∈ m.keptAttributes ↔ .other kept ∈ m.order := by
  rw [keptAttributes, List.mem_filterMap]
  constructor
  · rintro ⟨place, hplace, hkept⟩
    cases place <;> cases hkept
    exact hplace
  · exact fun h => ⟨_, h, rfl⟩

open Acceptance in
/-- What is written at a place of a method is an attribute of the second grammar, if those that
are carried through are. -/
theorem Writes.takes {pool pool' : ConstantPool} {m : Method} {place : Place} {item : Attribute}
    (hw : m.Writes pool' place item) (hmem : place ∈ m.written) (hm : m.Rereadable pool)
    (hkept : ∀ a ∈ m.keptAttributes, StandsAlone pool a)
    (hbody : ∀ a ∈ m.bodyAttributes, StandsAlone pool a) (hle : pool ≤ pool') (hfits : item.Fits)
    {depth : Nat} (hdepth : item.encode.length ≤ depth) :
    Takes (attributeWalk (slotsOf pool') (depth + 1)) item.encode := by
  have hpayload : item.payload.length < depth := by
    simp only [Attribute.encode, List.length_append, be16_length, count32_length] at hdepth
    omega
  cases place with
  | body =>
    obtain ⟨body, hb, hname, frame, parts, hframe, hparts, hitem⟩ := hw
    obtain ⟨hreadable, -⟩ := hm.body body hb pool' frame parts hle hframe hparts
    refine takes_attribute (nameAt?_of_isFirstText hname (by decide +kernel)) rfl hfits ?_
    rw [hitem] at hpayload ⊢
    refine takes_bodyPayload hreadable.length hreadable.handlers hreadable.attributes.1 ?_
    intro a ha
    -- an attribute in the body is shorter than the body it stands in
    have hinside : a.encode.length ≤ (Method.bodyPayload frame parts.flatten body).length := by
      have hlength := Attribute.length_encode_le ha
      simp only [Method.bodyPayload, List.length_append]
      omega
    refine (hbody a ?_).takes hle (Nat.lt_of_le_of_lt hinside hpayload)
    rw [bodyAttributes, hb]
    exact ha
  | visible =>
    obtain ⟨es, hes, hholds⟩ := hw
    exact takes_holdsEntries hholds (hm.visible es hes) rfl (by decide +kernel) hfits
      (Nat.le_of_lt hpayload)
  | invisible =>
    obtain ⟨es, hes, hholds⟩ := hw
    exact takes_holdsEntries hholds (hm.invisible es hes) rfl (by decide +kernel) hfits
      (Nat.le_of_lt hpayload)
  | other kept =>
    obtain rfl : item = kept := hw
    exact (hkept item (mem_keptAttributes.2 (other_mem_order hmem))).takes hle
      (Nat.lt_succ_of_le hdepth)

end Method

/-! ## Classes -/

namespace ClassLayout

/-- The attributes of a class and its members. -/
def attributeList (l : ClassLayout) : List Attribute :=
  l.fields.flatMap (·.attributes) ++ (l.methods.flatMap (·.attributes) ++ l.attributes)

theorem length_encode_le {l : ClassLayout} {a : Attribute} (h : a ∈ l.attributeList) :
    a.encode.length ≤ l.encode.length := by
  have hmembers : a.encode.length ≤ l.encodeMembers.length := by
    simp only [attributeList, List.mem_append, List.mem_flatMap] at h
    simp only [encodeMembers, List.length_append]
    obtain ⟨f, hf, ha⟩ | ⟨m, hm, ha⟩ | ha := h
    · have hfield : a.encode.length ≤ f.encode.length := by
        have hlength := Attribute.length_encode_le ha
        simp only [Field.encode, List.length_append]
        omega
      have hfields := length_le_length_flatMap (f := Field.encode) hf
      omega
    · have hmethod : a.encode.length ≤ m.encode.length := by
        have hlength := Attribute.length_encode_le ha
        simp only [MethodLayout.encode, List.length_append]
        omega
      have hmethods := length_le_length_flatMap (f := MethodLayout.encode) hm
      omega
    · have hlength := Attribute.length_encode_le ha
      omega
  simp only [encode, List.length_append]
  omega

open Acceptance

theorem takes_member {w : Walk} {access name descriptor : UInt16} {as : List Attribute}
    (hlength : as.length ≤ 65535) (h : ∀ a ∈ as, Takes w a.encode) :
    Takes (andThen (skip 6) (listU16 w))
      (be16 access ++ (be16 name ++ (be16 descriptor ++ Attribute.encodeAll as))) := by
  have hfront : Takes (skip 6) (be16 access ++ (be16 name ++ be16 descriptor)) := takes_skip rfl
  have hall := hfront.andThen (takes_encodeAll hlength h)
  simpa only [List.append_assoc] using hall

theorem takes_encodeMembers {l : ClassLayout} {w : Walk} (hf : l.Fits)
    (h : ∀ a ∈ l.attributeList, Takes w a.encode) : Takes (members w) l.encodeMembers := by
  simp only [attributeList, List.forall_mem_append, List.forall_mem_flatMap] at h
  obtain ⟨hfields, hmethods, hattributes⟩ := h
  have hfront : Takes (skip 6) (be16 l.access ++ (be16 l.name ++ be16 l.superName)) :=
    takes_skip rfl
  have hinterfaces := takes_listU16 hf.interfaces fun index _ => takes_skip (be16_length index)
  have hfields : Takes (listU16 (andThen (skip 6) (listU16 w)))
      (count16 l.fields.length ++ l.fields.flatMap Field.encode) :=
    takes_listU16 hf.fields.1 fun f hmem => takes_member (hf.fields.2 f hmem).1 (hfields f hmem)
  have hmethods : Takes (listU16 (andThen (skip 6) (listU16 w)))
      (count16 l.methods.length ++ l.methods.flatMap MethodLayout.encode) :=
    takes_listU16 hf.methods.1 fun m hmem => takes_member (hf.methods.2 m hmem).1 (hmethods m hmem)
  have hall := hfront.andThen (hinterfaces.andThen (hfields.andThen (hmethods.andThen
    (takes_encodeAll hf.attributes.1 hattributes))))
  simpa only [members, encodeMembers, List.append_assoc] using hall

theorem accepts_encode {l : ClassLayout} (hf : l.Fits) :
    accepts l.encode = (l.pool.isAccepted &&
      (members (attributeWalk (slotsOf l.pool) (l.encode.length + 1)) l.encodeMembers ==
        some [])) := by
  generalize hoctets : l.encode = octets
  rw [encode] at hoctets
  obtain ⟨a, b, hminor⟩ := exists_ofBe16 l.minor
  obtain ⟨c, d, hmajor⟩ := exists_ofBe16 l.major
  have hmagic : be32 magic = [0xca, 0xfe, 0xba, 0xbe] := rfl
  rw [hmagic, ← hminor, ← hmajor, be16_ofBe16, be16_ofBe16] at hoctets
  subst hoctets
  simp only [List.cons_append, List.nil_append, accepts]
  rw [pool?_encode hf.pool]
  cases l.pool.isAccepted <;> rfl

/-- A class whose pool is taken is accepted if its attributes are. -/
theorem accepts_of_takes {l : ClassLayout} (hf : l.Fits) (hpool : l.pool.isAccepted = true)
    (h : ∀ a ∈ l.attributeList,
      Takes (attributeWalk (slotsOf l.pool) (l.encode.length + 1)) a.encode) :
    accepts l.encode = true := by
  have hmembers := takes_encodeMembers hf h []
  rw [List.append_nil] at hmembers
  rw [accepts_encode hf, hpool, hmembers]
  rfl

end ClassLayout

namespace ClassFile

/-- Of the pool of a class that is accepted nothing is refused. -/
theorem isAccepted_of_read {octets : Bytes} {c : ClassFile} (hread : read octets = .ok c)
    (haccepts : Acceptance.accepts octets = true) : c.pool.isAccepted = true := by
  obtain ⟨l, hl, hd⟩ := read_eq_ok_iff.1 hread
  obtain ⟨rfl, hf⟩ := ClassLayout.parse_eq_ok_iff.1 hl
  rw [ClassLayout.accepts_encode hf, Bool.and_eq_true] at haccepts
  rw [hd.pool]
  exact haccepts.1

/-- The attributes of a class that are carried through as octets. -/
def keptAttributes (c : ClassFile) : List Attribute :=
  c.fields.flatMap (·.attributes) ++
    (c.methods.flatMap (fun m => m.keptAttributes ++ m.bodyAttributes) ++ c.attributes)

/-- What is written for a class is accepted, if its pool was taken and the attributes that are
carried through are by themselves what the second grammar takes them for. -/
theorem accepts_of_write {c : ClassFile} {octets : Bytes} (h : c.Rereadable)
    (hpool : c.pool.isAccepted = true)
    (hkept : ∀ a ∈ c.keptAttributes, Acceptance.StandsAlone c.pool a)
    (hw : c.write = .ok octets) : Acceptance.accepts octets = true := by
  obtain ⟨l, rfl, hp, hle, hl⟩ := exists_isWritten_of_write hw
  obtain ⟨-, -, -, hf⟩ := h.exists_readBack hp hle hl
  have hpool' : l.pool.isAccepted = true := hp ▸ isAccepted_of_write hw hpool
  refine ClassLayout.accepts_of_takes hf hpool' fun a ha => ?_
  have hlength := ClassLayout.length_encode_le ha
  simp only [keptAttributes, List.forall_mem_append, List.forall_mem_flatMap] at hkept
  obtain ⟨hfields, hmethods, hattributes⟩ := hkept
  simp only [ClassLayout.attributeList, List.mem_append, List.mem_flatMap] at ha
  obtain ⟨f, hmem, ha⟩ | ⟨m', hmem, ha⟩ | ha := ha
  · rw [hl.fields] at hmem
    exact (hfields f hmem a ha).takes hle (Nat.lt_succ_of_le hlength)
  · obtain ⟨m, hm, hwritten⟩ := exists_mem_of_forall₂ (List.Forall₂.flip hl.methods) hmem
    obtain ⟨place, hplace, hwrites⟩ :=
      exists_mem_of_forall₂ (List.Forall₂.flip hwritten.attributes) ha
    exact Method.Writes.takes hwrites hplace (h.methods.2 m hm) (hmethods m hm).1
      (hmethods m hm).2 hle ((hf.methods.2 m' hmem).2 a ha) hlength
  · rw [hl.attributes] at ha
    exact (hattributes a ha).takes hle (Nat.lt_succ_of_le hlength)

end ClassFile

/-! ## Edited classes -/

namespace Forwarding

/-- The attributes that an edit of a class carries over: all but those that are taken apart, and
those in the bodies that are replaced. -/
def carriedAttributes (s : Settings) (c : ClassFile) : List Attribute :=
  c.fields.flatMap (·.attributes) ++ (c.methods.flatMap (fun m => m.keptAttributes ++
    if ActsOn s m then [] else m.bodyAttributes) ++ c.attributes)

theorem keptAttributes_of_edited {p : Preferences} {s : Settings} {owner : String} {m m' : Method}
    (h : Edited p s owner m m') : m'.keptAttributes ++ m'.bodyAttributes =
      m.keptAttributes ++ if ActsOn s m then [] else m.bodyAttributes := by
  unfold Edited at h
  by_cases hacts : ActsOn s m
  · rw [if_pos hacts] at h ⊢
    obtain ⟨d, segment, -, -, rfl⟩ := forward?_eq_ok h
    rfl
  · rw [if_neg hacts] at h ⊢
    rw [h]

theorem flatMap_of_edited {p : Preferences} {s : Settings} {owner : String}
    {methods methods' : List Method} (h : List.Forall₂ (Edited p s owner) methods methods') :
    methods'.flatMap (fun m => m.keptAttributes ++ m.bodyAttributes) =
      methods.flatMap fun m => m.keptAttributes ++ if ActsOn s m then [] else m.bodyAttributes := by
  induction h with
  | nil => rfl
  | cons hm _ ih => rw [List.flatMap_cons, List.flatMap_cons, ih, keptAttributes_of_edited hm]

theorem keptAttributes_edit {p : Preferences} {s : Settings} {label : String} {c : ClassFile}
    (h : (edit p s label c).failure = none) :
    (edit p s label c).classFile.keptAttributes = carriedAttributes s c := by
  obtain ⟨methods, hclass, hmethods⟩ := edit_methods h
  rw [hclass, ClassFile.keptAttributes, carriedAttributes, ← flatMap_of_edited hmethods]

/-- What is written for an edited class is accepted, if the class that was read was and the
attributes that the edit carries over are by themselves what the second grammar takes them for. -/
theorem accepts_write_edit {octets octets' : Bytes} {c : ClassFile} {p : Preferences}
    {s : Settings} {label : String} (hread : ClassFile.read octets = .ok c)
    (haccepts : Acceptance.accepts octets = true)
    (hcarried : ∀ a ∈ carriedAttributes s c, Acceptance.StandsAlone c.pool a)
    (h : (edit p s label c).failure = none) (hcounts : (edit p s label c).classFile.CountsFit)
    (hwrite : (edit p s label c).classFile.write = .ok octets') :
    Acceptance.accepts octets' = true ∧
      ∀ path, Plan.checkedOctets path (edit p s label c).classFile = .ok octets' := by
  have hpool : (edit p s label c).classFile.pool = c.pool := by
    obtain ⟨methods, hclass, -⟩ := edit_methods h
    rw [hclass]
  have haccepts' : Acceptance.accepts octets' = true := by
    refine ClassFile.accepts_of_write (rereadable_edit hread h hcounts) ?_ ?_ hwrite
    · rw [hpool]
      exact ClassFile.isAccepted_of_read hread haccepts
    · rw [hpool, keptAttributes_edit h]
      exact hcarried
  refine ⟨haccepts', fun path => ?_⟩
  rw [Plan.checkedOctets, hwrite]
  simp only [classInContext, Except.mapError, bind, Except.bind, haccepts', if_true]
  rfl

end Forwarding

/-! ## Two classes -/

/-- A class with a field and a method that carry attributes, another method that is marked, a wide
constant, and the name of its source. -/
def ClassLayout.attributed : ClassLayout where
  minor := 0
  major := 52
  pool := ⟨#[.utf8 (ModifiedUtf8.encode "a/B"), .class 1, .utf8 (ModifiedUtf8.encode "f"),
    .utf8 (ModifiedUtf8.encode "()V"), .utf8 (ModifiedUtf8.encode "Code"),
    .utf8 (ModifiedUtf8.encode "RuntimeInvisibleAnnotations"),
    .utf8 (ModifiedUtf8.encode "Ldev/architectury/annotations/ExpectPlatform;"),
    .utf8 (ModifiedUtf8.encode "SourceFile"), .utf8 (ModifiedUtf8.encode "B.java"),
    .utf8 (ModifiedUtf8.encode "LineNumberTable"), .utf8 (ModifiedUtf8.encode "ConstantValue"),
    .utf8 (ModifiedUtf8.encode "J"), .long 7, .unusable], by decide⟩
  access := 0x21
  name := 2
  superName := 0
  interfaces := []
  fields := [⟨0x18, 3, 12, [⟨11, [0, 13]⟩]⟩]
  methods := [⟨0x109, 3, 4, [⟨6, [0, 1, 0, 7, 0, 0]⟩]⟩,
    ⟨0x009, 12, 4, [⟨5, [0, 0, 0, 0, 0, 0, 0, 1, 0xb1, 0, 0, 0, 1, 0, 10, 0, 0, 0, 6,
      0, 1, 0, 0, 0, 9]⟩]⟩]
  attributes := [⟨8, [0, 9]⟩]

def ClassFile.attributed : ClassFile where
  minor := 0
  major := 52
  pool := ClassLayout.attributed.pool
  access := 0x21
  name := "a/B"
  superName := none
  interfaces := []
  fields := [⟨0x18, 3, 12, [⟨11, [0, 13]⟩]⟩]
  methods := [⟨0x109, "f", "()V", none, none,
      some [.marker "Ldev/architectury/annotations/ExpectPlatform;"], [.invisible]⟩,
    ⟨0x009, "J", "()V", some ⟨some ⟨0, 0⟩, [.raw [0xb1]], [], [⟨10, [0, 1, 0, 0, 0, 9]⟩]⟩,
      none, none, [.body]⟩]
  attributes := [⟨8, [0, 9]⟩]

/-- A class with a field whose attribute `Deprecated` is measured as 24 octets. The second grammar
knows that such an attribute is empty, and takes these octets for the methods: one, with a body
that covers all that follows. -/
def ClassLayout.overlapping : ClassLayout where
  minor := 0
  major := 52
  pool := ⟨#[.utf8 (ModifiedUtf8.encode "a/B"), .class 1, .utf8 (ModifiedUtf8.encode "f"),
    .utf8 (ModifiedUtf8.encode "()V"), .utf8 (ModifiedUtf8.encode "Code"),
    .utf8 (ModifiedUtf8.encode "Deprecated"),
    .utf8 (ModifiedUtf8.encode "RuntimeInvisibleAnnotations"),
    .utf8 (ModifiedUtf8.encode "Ldev/architectury/annotations/ExpectPlatform;")], by decide⟩
  access := 0x21
  name := 2
  superName := 0
  interfaces := []
  fields := [⟨9, 3, 4, [⟨6, [0, 1, 0, 9, 0, 3, 0, 4, 0, 1, 0, 5, 0, 0, 0, 0, 0, 0, 0, 0,
    0, 0, 0, 30]⟩]⟩]
  methods := [⟨0x109, 3, 4, [⟨7, [0, 1, 0, 8, 0, 0]⟩]⟩]
  attributes := [⟨7, [0, 0, 0, 0, 0, 0]⟩]

def ClassFile.overlapping : ClassFile where
  minor := 0
  major := 52
  pool := ClassLayout.overlapping.pool
  access := 0x21
  name := "a/B"
  superName := none
  interfaces := []
  fields := ClassLayout.overlapping.fields
  methods := [⟨0x109, "f", "()V", none, none,
    some [.marker "Ldev/architectury/annotations/ExpectPlatform;"], [.invisible]⟩]
  attributes := ClassLayout.overlapping.attributes

namespace Forwarding

theorem accepts_write_edit_attributed :
    ∃ octets, (edit .none (ofPlatform "quilt") "a/B" .attributed).classFile.write = .ok octets ∧
      Acceptance.accepts octets = true ∧
        ∀ path, Plan.checkedOctets path
          (edit .none (ofPlatform "quilt") "a/B" .attributed).classFile = .ok octets := by
  have hread : ClassFile.read ClassLayout.attributed.encode = .ok .attributed := by
    decide +kernel
  have hok : (edit .none (ofPlatform "quilt") "a/B" .attributed).classFile.write.isOk = true := by
    decide +kernel
  cases hwrite : (edit .none (ofPlatform "quilt") "a/B" .attributed).classFile.write with
  | ok octets =>
    exact ⟨octets, rfl, accepts_write_edit hread (by decide +kernel) (by decide +kernel)
      (by decide +kernel) (by decide +kernel) hwrite⟩
  | error e =>
    rw [hwrite] at hok
    cases hok

/-- The class with the overlap is read and accepted, and edited and written without a failure. The
forwarding body makes what follows the field longer, the body that was to cover it stays as it is,
and the result is refused. -/
theorem not_accepts_write_edit_overlapping :
    ClassFile.read ClassLayout.overlapping.encode = .ok .overlapping ∧
      Acceptance.accepts ClassLayout.overlapping.encode = true ∧
      (edit .none (ofPlatform "fabric") "a/B" .overlapping).failure = none ∧
      (edit .none (ofPlatform "fabric") "a/B" .overlapping).classFile.CountsFit ∧
      (edit .none (ofPlatform "fabric") "a/B" .overlapping).classFile.write.map
        Acceptance.accepts = .ok false := by
  decide +kernel

end Forwarding

end PlatformLink
