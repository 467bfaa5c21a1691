import PlatformLink.Proofs.WritingSpec

/-! # Writing a class that was read

A class is written as it was read exactly when its layout is `ClassLayout.Canonical`: every index
that was looked up and is interned again is the smallest one for what stands under it, and nothing
follows a body in its payload. The pool cannot grow without its count showing, so an index that is
not the smallest one is seen in the octets: `ClassFile.write_read_eq_iff_canonical`.
-/

namespace PlatformLink
set_option autoImplicit false

open Reader

/-! ## Canonical layouts -/

/-- A text under this index is interned under this index. -/
def ConstantPool.IsCanonicalText (pool : ConstantPool) (index : UInt16) : Prop :=
  ∀ text, pool.text index = .ok text → pool.IsFirstText index text

/-- A class under this index is interned under this index, and its name under that of its name. -/
def ConstantPool.IsCanonicalClass (pool : ConstantPool) (index : UInt16) : Prop :=
  ∀ name, pool.className index = .ok name → pool.IsFirstClass index name

/-- The payload is that of a body, to the last octet. -/
def Attribute.EndsWithBody (pool : ConstantPool) (item : Attribute) : Prop :=
  ∃ body, Reader.parse (do
    let body ← Body.read pool
    Reader.atEnd
    return body) item.payload = .ok body

/-- The attribute at a place is canonical; one that is carried through always is. -/
def Attribute.Canonical (pool : ConstantPool) (item : Attribute) : Place → Prop
  | .body => pool.IsCanonicalText item.name ∧ item.EndsWithBody pool
  | .visible | .invisible => pool.IsCanonicalText item.name ∧
    ∀ ls, AnnotationLayout.decode item.payload = .ok ls → ∀ l ∈ ls, pool.IsCanonicalText l.type
  | .other _ => True

structure MethodLayout.Canonical (pool : ConstantPool) (l : MethodLayout) (places : List Place) :
    Prop where
  name : pool.IsCanonicalText l.name
  descriptor : pool.IsCanonicalText l.descriptor
  attributes : List.Forall₂ (fun place item => Attribute.Canonical pool item place) places
    l.attributes

structure ClassLayout.Canonical (l : ClassLayout) (c : ClassFile) : Prop where
  name : l.pool.IsCanonicalClass l.name
  superName : l.pool.IsCanonicalClass l.superName
  methods : List.Forall₂ (fun m l' => MethodLayout.Canonical l.pool l' m.order) c.methods l.methods

/-! ## Canonical and written -/

namespace ConstantPool

variable {pool : ConstantPool} {index : UInt16} {text : String}

theorem isCanonicalText_iff (h : pool.text index = .ok text) :
    pool.IsCanonicalText index ↔ pool.IsFirstText index text := by
  constructor
  · exact fun hc => hc text h
  · intro hf other ho
    rw [h] at ho
    exact Except.ok.inj ho ▸ hf

theorem isCanonicalClass_iff (h : pool.className index = .ok text) :
    pool.IsCanonicalClass index ↔ pool.IsFirstClass index text := by
  constructor
  · exact fun hc => hc text h
  · intro hf other ho
    rw [h] at ho
    exact Except.ok.inj ho ▸ hf

theorem isCanonicalClass_iff_super {name : Option String}
    (h : ClassFile.SuperName pool index name) :
    pool.IsCanonicalClass index ↔ pool.IsFirstSuper index name := by
  cases name with
  | some name => exact isCanonicalClass_iff h.2
  | none =>
    obtain rfl : index = 0 := h
    simp [IsCanonicalClass, IsFirstSuper, className, get, bind, Except.bind]

end ConstantPool

namespace Attribute

variable {pool : ConstantPool} {m : Method} {item : Attribute}

theorem canonical_iff_holdsBody {body : Body} (hname : pool.text item.name = .ok bodyName)
    (hr : Reader.parse (Body.read pool) item.payload = .ok body) :
    item.Canonical pool .body ↔ item.HoldsBody pool m body := by
  have hends := (Body.reads_read pool).parse_atEnd_eq_ok_iff item.payload
  have hfront := (Body.reads_read pool).parse_eq_ok_iff item.payload
  obtain ⟨_, rest, -, frame, parts, rfl, hbody⟩ := (hfront body).1 hr
  simp only [Canonical, ConstantPool.isCanonicalText_iff hname]
  constructor
  · rintro ⟨hfirst, body', hpayload⟩
    obtain ⟨frame', parts', hpayload', hbody'⟩ := (hends body').1 hpayload
    have hr' := (hfront body').2 ⟨_, [], (List.append_nil _).symm, frame', parts', hpayload', hbody'⟩
    obtain rfl : body = body' := Except.ok.inj (hr.symm.trans hr')
    obtain ⟨hframe, hparts⟩ := hbody'.isEncoded_iff.2 ⟨rfl, rfl⟩
    exact ⟨hfirst, frame', parts', hframe, hparts, hpayload'⟩
  · rintro ⟨hfirst, frame', parts', hframe', hparts, hpayload⟩
    obtain ⟨rfl, rfl⟩ := hbody.isEncoded_iff.1 ⟨hframe', hparts⟩
    exact ⟨hfirst, body, (hends body).2 ⟨_, _, hpayload, hbody⟩⟩

/-- The types in a payload are canonical when the payload is what is written for its entries. -/
theorem canonical_iff_holdsEntries {name : String} {es : List AnnotationEntry}
    (hname : pool.text item.name = .ok name) (hr : Annotations.decode pool item.payload = .ok es) :
    (pool.IsCanonicalText item.name ∧ ∀ ls, AnnotationLayout.decode item.payload = .ok ls →
      ∀ l ∈ ls, pool.IsCanonicalText l.type) ↔ item.HoldsEntries pool name es := by
  obtain ⟨hlength, helements, -⟩ := Annotations.readable_of_decode hr
  obtain ⟨ls, hls, hd⟩ := Annotations.decode_eq_ok_iff.1 hr
  rw [ConstantPool.isCanonicalText_iff hname]
  constructor
  · rintro ⟨hfirst, htypes⟩
    refine ⟨hfirst, ls, (AnnotationLayout.decode_eq_ok_iff.1 hls).1, List.Forall₂.flip ?_⟩
    have hboth := (List.forall₂_and_left _ _).2 ⟨htypes ls hls, hd⟩
    exact hboth.imp fun l e h => ⟨h.1 _ h.2.type, h.2.elements.symm⟩
  · rintro ⟨hfirst, ls', hpayload, hwritten⟩
    refine ⟨hfirst, fun ls'' hls'' => ?_⟩
    have hls' := AnnotationLayout.decode_of_isWritten hwritten hlength helements
    obtain rfl : ls' = ls'' := by
      rw [hpayload, hls'] at hls''
      exact Except.ok.inj hls''
    refine forall_mem_right_of_forall₂ hwritten fun e l hw => ?_
    exact (ConstantPool.isCanonicalText_iff hw.type.text).2 hw.type

theorem canonical_iff_writes {place : Place} (h : m.Decodes pool place item) :
    item.Canonical pool place ↔ m.Writes pool place item := by
  cases place with
  | body =>
    obtain ⟨hname, body, hbody, hr⟩ := h
    simp only [Method.Writes, hbody, Option.some.injEq, exists_eq_left']
    exact canonical_iff_holdsBody hname hr
  | visible =>
    obtain ⟨hname, es, hes, hr⟩ := h
    simp only [Method.Writes, hes, Option.some.injEq, exists_eq_left']
    exact canonical_iff_holdsEntries hname hr
  | invisible =>
    obtain ⟨hname, es, hes, hr⟩ := h
    simp only [Method.Writes, hes, Option.some.injEq, exists_eq_left']
    exact canonical_iff_holdsEntries hname hr
  | other kept => exact ⟨fun _ => h.1, fun _ => trivial⟩

end Attribute

theorem MethodLayout.canonical_iff_isWritten {pool : ConstantPool} {l : MethodLayout} {m : Method}
    (h : l.Describes pool m) : l.Canonical pool m.order ↔ l.IsWritten pool m := by
  have hname := ConstantPool.isCanonicalText_iff h.name
  have hdescriptor := ConstantPool.isCanonicalText_iff h.descriptor
  have hattributes := forall₂_congr_of_forall₂ h.attributes.decodes
    fun place item hd => Attribute.canonical_iff_writes hd
  have hplaces := h.attributes.written_eq
  constructor
  · rintro ⟨hn, hd, ha⟩
    exact ⟨h.access.symm, hname.1 hn, hdescriptor.1 hd, hplaces ▸ hattributes.1 ha⟩
  · rintro ⟨-, hn, hd, ha⟩
    exact ⟨hname.2 hn, hdescriptor.2 hd, hattributes.2 (hplaces ▸ ha)⟩

theorem ClassLayout.canonical_iff_isWritten {l : ClassLayout} {c : ClassFile} (h : l.Describes c) :
    l.Canonical c ↔ l.IsWritten c := by
  have hname := ConstantPool.isCanonicalClass_iff h.name
  have hsuper := ConstantPool.isCanonicalClass_iff_super h.superName
  have hmethods := forall₂_congr_of_forall₂ (List.Forall₂.flip h.methods)
    fun m l' hd => MethodLayout.canonical_iff_isWritten hd
  constructor
  · rintro ⟨hn, hs, hm⟩
    exact ⟨h.minor.symm, h.major.symm, h.access.symm, hname.1 hn, hsuper.1 hs, h.interfaces.symm,
      h.fields.symm, hmethods.1 hm, h.attributes.symm⟩
  · rintro ⟨-, -, -, hn, hs, -, -, hm, -⟩
    exact ⟨hname.2 hn, hsuper.2 hs, hmethods.2 hm⟩

/-! ## What is written in the octets that were read -/

namespace ClassLayout

/-- The count of the pool is in the octets. -/
theorem slotCount_eq_of_encode_eq {l l' : ClassLayout} (h : l.encode = l'.encode) :
    l.pool.slotCount = l'.pool.slotCount := by
  have hsize := l.pool.size_lt
  have hsize' := l'.pool.size_lt
  unfold encode at h
  obtain ⟨-, h⟩ := List.append_inj h rfl
  obtain ⟨-, h⟩ := List.append_inj h rfl
  obtain ⟨-, h⟩ := List.append_inj h rfl
  rw [ConstantPool.encode, ConstantPool.encode, List.append_assoc, List.append_assoc] at h
  obtain ⟨h, -⟩ := List.append_inj h rfl
  unfold ConstantPool.slotCount at h ⊢
  exact count16_inj (by omega) (by omega) h

end ClassLayout

/-- What is written at a place takes no more octets than what was read there. -/
theorem Attribute.length_le_of_writes {pool : ConstantPool} {m : Method} {place : Place}
    {item item' : Attribute} (h : m.Decodes pool place item) (h' : m.Writes pool place item') :
    item'.payload.length ≤ item.payload.length := by
  have entries {es : List AnnotationEntry} {name : String}
      (hr : Annotations.decode pool item.payload = .ok es) (hw : item'.HoldsEntries pool name es) :
      item'.payload.length ≤ item.payload.length := by
    obtain ⟨-, -, hlength⟩ := Annotations.readable_of_decode hr
    obtain ⟨ls, hpayload, hls⟩ := hw.payload
    have hwritten := congrArg List.length hpayload
    rw [Annotations.length_of_isWritten hls] at hwritten
    omega
  cases place with
  | body =>
    obtain ⟨-, body, hbody, hr⟩ := h
    obtain ⟨body', hbody', hw⟩ := h'
    obtain rfl : body = body' := Option.some.inj (hbody.symm.trans hbody')
    obtain ⟨word, rest, hpayload, frame, parts, hword, hb⟩ :=
      ((Body.reads_read pool).parse_eq_ok_iff _ _).1 hr
    obtain ⟨frame', parts', hframe', hparts, hpayload'⟩ := hw.payload
    obtain ⟨rfl, rfl⟩ := hb.isEncoded_iff.1 ⟨hframe', hparts⟩
    rw [hpayload, hpayload', ← hword, List.length_append]
    exact Nat.le_add_right _ _
  | visible =>
    obtain ⟨-, es, hes, hr⟩ := h
    obtain ⟨es', hes', hw⟩ := h'
    obtain rfl : es = es' := Option.some.inj (hes.symm.trans hes')
    exact entries hr hw
  | invisible =>
    obtain ⟨-, es, hes, hr⟩ := h
    obtain ⟨es', hes', hw⟩ := h'
    obtain rfl : es = es' := Option.some.inj (hes.symm.trans hes')
    exact entries hr hw
  | other kept =>
    obtain ⟨rfl, -⟩ := h
    obtain rfl : item' = item := h'
    exact Nat.le_refl _

theorem MethodLayout.IsWritten.fits {pool : ConstantPool} {m : Method} {l l' : MethodLayout}
    (h : l'.IsWritten pool m) (hd : l.Describes pool m) (hf : l.Fits) : l'.Fits := by
  have hw := h.attributes
  rw [hd.attributes.written_eq] at hw
  have hpairs := forall₂_join hd.attributes.decodes hw
  refine ⟨hpairs.length_eq ▸ hf.1, forall_mem_of_forall₂ hpairs ?_ hf.2⟩
  rintro item item' ⟨place, hread, hwrite⟩ hfits
  exact Nat.lt_of_le_of_lt (Attribute.length_le_of_writes hread hwrite) hfits

theorem ClassLayout.IsWritten.fits {c : ClassFile} {l l' : ClassLayout} (h : l'.IsWritten c)
    (hd : l.Describes c) (hf : l.Fits) (hp : l'.pool = l.pool) : l'.Fits := by
  have hmethods := forall₂_join (List.Forall₂.flip hd.methods) h.methods
  refine ⟨hp ▸ hf.pool, ?_, ?_, ⟨hmethods.length_eq ▸ hf.methods.1, ?_⟩, ?_⟩
  · rw [h.interfaces, hd.interfaces]
    exact hf.interfaces
  · rw [h.fields, hd.fields]
    exact hf.fields
  · refine forall_mem_of_forall₂ hmethods ?_ hf.methods.2
    rintro l₁ l₂ ⟨m, hread, hwrite⟩ hfits
    rw [hp] at hwrite
    exact hwrite.fits hread hfits
  · rw [h.attributes, hd.attributes]
    exact hf.attributes

namespace ClassFile

/-- A class that was read is written as it was read when its layout is canonical, and only
then. -/
theorem write_read_eq_iff_canonical {octets : Bytes} {c : ClassFile} (h : read octets = .ok c) :
    ∃ l, ClassLayout.parse octets = .ok l ∧ (c.write = .ok octets ↔ l.Canonical c) := by
  obtain ⟨l, hl, hd⟩ := read_eq_ok_iff.1 h
  obtain ⟨rfl, hf⟩ := ClassLayout.parse_eq_ok_iff.1 hl
  refine ⟨l, hl, ?_⟩
  rw [ClassLayout.canonical_iff_isWritten hd]
  constructor
  · intro hw
    obtain ⟨l', he, -, hle, hwritten⟩ := exists_isWritten_of_write hw
    -- the count of the pool is among the octets, so the pool has not grown, and the layout that
    -- is written is one of these octets: there is only one
    have hcount : c.pool.slotCount = l'.pool.slotCount := by
      rw [hd.pool]
      exact ClassLayout.slotCount_eq_of_encode_eq he
    have hpool : l'.pool = l.pool := by
      rw [← ConstantPool.eq_of_le_of_slotCount_eq hle hcount, hd.pool]
    have hl' := ClassLayout.parse_eq_ok_iff.2 ⟨he, hwritten.fits hd hf hpool⟩
    obtain rfl : l = l' := Except.ok.inj (hl.symm.trans hl')
    exact hwritten
  · exact fun hwritten => write_of_isWritten hwritten hd.pool.symm

theorem write_read_eq_iff_canonical_sample :
    ∃ l, ClassLayout.parse ClassLayout.sample.encode = .ok l ∧
      (sample.write = .ok ClassLayout.sample.encode ↔ l.Canonical sample) :=
  write_read_eq_iff_canonical read_sample

end ClassFile

end PlatformLink
