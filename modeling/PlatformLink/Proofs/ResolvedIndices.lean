import PlatformLink.Proofs.ForwardingRoundTrip

/-! # Which indices of a class are looked up

A class file refers to its pool in many places. The reader looks the indices of the class and its
super class, of the names and descriptors of methods, and of the names of the attributes in methods
and bodies up (`ClassFile.LooksUp`); the others it carries through, and they may as well dangle
(`ClassFile.read_dangling`). `ClassFile.lookups_of_read` says both: what was looked up is
there, and whatever stands in the other places instead, the class is read (`ClassLayout.Relinked`).
-/

namespace PlatformLink
set_option autoImplicit false

open Reader

/-! ## Entries of a kind -/

namespace ConstantPool

/-- A text stands under the index. -/
def HasText (pool : ConstantPool) (index : UInt16) : Prop :=
  ∃ octets, pool.get index = .ok (.utf8 octets)

/-- A class stands under the index. -/
def HasClass (pool : ConstantPool) (index : UInt16) : Prop :=
  ∃ name, pool.get index = .ok (.class name)

theorem hasText_of_text {pool : ConstantPool} {index : UInt16} {text : String}
    (h : pool.text index = .ok text) : pool.HasText index := by
  obtain ⟨octets, hholds, -⟩ := text_eq_ok_iff.1 h
  exact ⟨octets, get_eq_ok_iff.2 ⟨hholds, by simp⟩⟩

theorem hasClass_of_className {pool : ConstantPool} {index : UInt16} {name : String}
    (h : pool.className index = .ok name) : pool.HasClass index := by
  obtain ⟨nameIndex, hholds, -⟩ := className_eq_ok_iff.1 h
  exact ⟨nameIndex, get_eq_ok_iff.2 ⟨hholds, by simp⟩⟩

end ConstantPool

/-! ## Indices of a class -/

/-- The names of some attributes are texts. -/
def Attribute.Named (pool : ConstantPool) (as : List Attribute) : Prop :=
  ∀ a ∈ as, pool.HasText a.name

/-- The indices of the layout `l` of a class `c` that lead to what belongs there: those that are
looked up when the class is read. -/
structure ClassFile.LooksUp (l : ClassLayout) (c : ClassFile) : Prop where
  name : l.pool.HasClass l.name
  superName : l.superName = 0 ∨ l.pool.HasClass l.superName
  methods : ∀ m ∈ l.methods, l.pool.HasText m.name ∧ l.pool.HasText m.descriptor ∧
    Attribute.Named l.pool m.attributes
  bodies : ∀ m ∈ c.methods, ∀ body, m.body = some body → Attribute.Named l.pool body.attributes

/-- Every index of the class leads to what belongs there. -/
structure ClassFile.Linked (l : ClassLayout) (c : ClassFile) : Prop extends LooksUp l c where
  interfaces : ∀ index ∈ l.interfaces, l.pool.HasClass index
  fields : ∀ f ∈ l.fields, l.pool.HasText f.name ∧ l.pool.HasText f.descriptor ∧
    Attribute.Named l.pool f.attributes
  attributes : Attribute.Named l.pool l.attributes
  handlers : ∀ m ∈ c.methods, ∀ body, m.body = some body → ∀ h ∈ body.handlers,
    h.catchType = 0 ∨ l.pool.HasClass h.catchType

theorem Method.Attributed.named {pool : ConstantPool} {m : Method} {attributes : List Attribute}
    (h : m.Attributed pool attributes) : Attribute.Named pool attributes := by
  refine forall_mem_right_of_forall₂ h.decodes ?_
  intro place item hitem
  cases place with
  | other kept =>
    obtain ⟨-, name, hname⟩ := hitem
    exact ConstantPool.hasText_of_text hname
  | _ => exact ConstantPool.hasText_of_text hitem.1

theorem ClassLayout.Describes.looksUp {l : ClassLayout} {c : ClassFile} (h : l.Describes c) :
    ClassFile.LooksUp l c := by
  constructor
  · exact ConstantPool.hasClass_of_className h.name
  · have hsuper := h.superName
    cases hname : c.superName with
    | none =>
      rw [hname] at hsuper
      exact .inl hsuper
    | some name =>
      rw [hname] at hsuper
      exact .inr (ConstantPool.hasClass_of_className hsuper.2)
  · intro m hm
    obtain ⟨m', -, hmethod⟩ := exists_mem_of_forall₂ h.methods hm
    exact ⟨ConstantPool.hasText_of_text hmethod.name,
      ConstantPool.hasText_of_text hmethod.descriptor, hmethod.attributes.named⟩
  · intro m hm body hbody a ha
    obtain ⟨l', -, hmethod⟩ := exists_mem_of_forall₂ (List.Forall₂.flip h.methods) hm
    obtain ⟨_, _, _, _, hreadable, _⟩ := hmethod.attributes.exists_readable hbody
    obtain ⟨name, hname⟩ := hreadable.names a ha
    exact ConstantPool.hasText_of_text hname

/-! ## Other indices in their places -/

/-- The attributes are the same but for their names. -/
def Attribute.Renamed (a b : Attribute) : Prop := b.payload = a.payload

/-- The attributes are the same, or hold a body with other handlers, as many as before. -/
def Attribute.Rehandled (pool : ConstantPool) (a b : Attribute) : Prop :=
  b.name = a.name ∧ (b.payload = a.payload ∨ pool.text a.name = .ok bodyName ∧
    ∃ (frame : FrameSize) (parts : List Bytes) (body : Body) (handlers : List Handler)
      (rest : Bytes), body.Readable pool frame parts ∧ handlers.length = body.handlers.length ∧
        a.payload = Method.bodyPayload frame parts.flatten body ++ rest ∧
        b.payload =
          Method.bodyPayload frame parts.flatten { body with handlers := handlers } ++ rest)

structure Field.Relinked (f g : Field) : Prop where
  access : g.access = f.access
  attributes : List.Forall₂ Attribute.Renamed f.attributes g.attributes

structure MethodLayout.Relinked (pool : ConstantPool) (l l' : MethodLayout) : Prop where
  access : l'.access = l.access
  name : l'.name = l.name
  descriptor : l'.descriptor = l.descriptor
  attributes : List.Forall₂ (Attribute.Rehandled pool) l.attributes l'.attributes

/-- The layouts differ in nothing but the interfaces, the names and descriptors of fields, the
names of the attributes of fields and of the class, and the handlers. -/
structure ClassLayout.Relinked (l l' : ClassLayout) : Prop where
  minor : l'.minor = l.minor
  major : l'.major = l.major
  pool : l'.pool = l.pool
  access : l'.access = l.access
  name : l'.name = l.name
  superName : l'.superName = l.superName
  interfaces : l'.interfaces.length = l.interfaces.length
  fields : List.Forall₂ Field.Relinked l.fields l'.fields
  methods : List.Forall₂ (MethodLayout.Relinked l.pool) l.methods l'.methods
  attributes : List.Forall₂ Attribute.Renamed l.attributes l'.attributes

/-! ## They take as many octets -/

theorem Attribute.AllFit.of_forall₂ {R : Attribute → Attribute → Prop} {as bs : List Attribute}
    (h : List.Forall₂ R as bs) (hR : ∀ a b, R a b → b.payload.length = a.payload.length)
    (hf : AllFit as) : AllFit bs := by
  refine ⟨h.length_eq ▸ hf.1, ?_⟩
  refine forall_mem_of_forall₂ h ?_ hf.2
  intro a b hab ha
  rw [Fits, hR a b hab]
  exact ha

theorem Attribute.Renamed.length_eq {a b : Attribute} (h : Renamed a b) :
    b.payload.length = a.payload.length := congrArg List.length h

theorem Handler.length_flatMap_encode (hs : List Handler) :
    (hs.flatMap Handler.encode).length = 8 * hs.length :=
  length_flatMap_of_length (f := Handler.encode) (fun _ => rfl) hs

theorem Attribute.Rehandled.length_eq {pool : ConstantPool} {a b : Attribute}
    (h : Rehandled pool a b) : b.payload.length = a.payload.length := by
  obtain ⟨-, hsame | ⟨-, frame, parts, body, handlers, rest, -, hlength, ha, hb⟩⟩ := h
  · rw [hsame]
  · rw [ha, hb]
    simp only [Method.bodyPayload, List.length_append, be16_length, count32_length, count16_length,
      Handler.length_flatMap_encode, hlength]

theorem ClassLayout.Relinked.fits {l l' : ClassLayout} (h : l.Relinked l') (hf : l.Fits) :
    l'.Fits := by
  have hrenamed (a b : Attribute) (hab : a.Renamed b) := hab.length_eq
  constructor
  · rw [h.pool]
    exact hf.pool
  · rw [h.interfaces]
    exact hf.interfaces
  · refine ⟨h.fields.length_eq ▸ hf.fields.1, ?_⟩
    refine forall_mem_of_forall₂ h.fields ?_ hf.fields.2
    intro f g hfg
    exact Attribute.AllFit.of_forall₂ hfg.attributes hrenamed
  · refine ⟨h.methods.length_eq ▸ hf.methods.1, ?_⟩
    refine forall_mem_of_forall₂ h.methods ?_ hf.methods.2
    intro m m' hm
    exact Attribute.AllFit.of_forall₂ hm.attributes fun _ _ hab => hab.length_eq
  · exact Attribute.AllFit.of_forall₂ h.attributes hrenamed hf.attributes

/-! ## They are read the same way -/

theorem Body.exists_read_rehandled {pool : ConstantPool} {a b : Attribute} {body : Body}
    (h : a.Rehandled pool b) (hread : Reader.parse (Body.read pool) a.payload = .ok body) :
    ∃ body', Reader.parse (Body.read pool) b.payload = .ok body' := by
  obtain ⟨-, hsame | ⟨-, frame, parts, found, handlers, rest, hr, hlength, -, hb⟩⟩ := h
  · rw [hsame]
    exact ⟨body, hread⟩
  · have hreadable : Body.Readable pool frame parts { found with handlers := handlers } :=
      ⟨hr.frame, hr.instructions, hr.split, hr.length, hlength ▸ hr.handlers, hr.attributes,
        hr.names⟩
    refine ⟨{ found with handlers := handlers }, ?_⟩
    rw [(Body.reads_read pool).parse_eq_ok_iff]
    exact ⟨_, rest, hb, frame, parts, rfl, hreadable⟩

namespace Method

/-- The methods have the same parts, whatever is in their bodies. -/
structure SameParts (m m' : Method) : Prop where
  body : m'.body = none ↔ m.body = none
  visible : m'.visible = m.visible
  invisible : m'.invisible = m.invisible

/-- An attribute is taken by the parts that are there already, and not by what is in them. -/
theorem exists_absorb_rehandled {pool : ConstantPool} {m m₁ m' : Method} {a b : Attribute}
    (hm : m.SameParts m') (h : a.Rehandled pool b) (ha : absorb pool m a = .ok m₁) :
    ∃ m₁', absorb pool m' b = .ok m₁' ∧ m₁.SameParts m₁' := by
  unfold absorb at ha ⊢
  obtain ⟨name, hname, ha⟩ := bind_eq_ok_iff.1 ha
  have hsame : name ≠ bodyName → b.payload = a.payload := by
    intro hne
    rcases h.2 with hsame | ⟨hbody, -⟩
    · exact hsame
    · exact absurd (Except.ok.inj (hname.symm.trans hbody)) hne
  simp only [h.1, hname, bind_eq_ok_iff, Except.ok.injEq, exists_eq_left', hm.body, hm.visible,
    hm.invisible]
  by_cases hb : name = bodyName ∧ m.body = none
  · rw [if_pos hb] at ha
    obtain ⟨body, hr, ha⟩ := bind_eq_ok_iff.1 ha
    cases ha
    obtain ⟨body', hr'⟩ := Body.exists_read_rehandled h hr
    simp only [if_pos hb, hr']
    exact ⟨_, rfl, by simp, rfl, rfl⟩
  rw [if_neg hb] at ha ⊢
  by_cases hv : name = visibleName ∧ m.visible = none
  · rw [if_pos hv] at ha ⊢
    obtain ⟨entries, hr, ha⟩ := bind_eq_ok_iff.1 ha
    cases ha
    rw [hsame (by rw [hv.1]; decide), hr]
    exact ⟨_, rfl, hm.body, rfl, rfl⟩
  rw [if_neg hv] at ha ⊢
  by_cases hi : name = invisibleName ∧ m.invisible = none
  · rw [if_pos hi] at ha ⊢
    obtain ⟨entries, hr, ha⟩ := bind_eq_ok_iff.1 ha
    cases ha
    rw [hsame (by rw [hi.1]; decide), hr]
    exact ⟨_, rfl, hm.body, rfl, rfl⟩
  rw [if_neg hi] at ha ⊢
  cases ha
  exact ⟨_, rfl, hm.body, rfl, rfl⟩

theorem exists_foldlM_absorb_rehandled {pool : ConstantPool} {as bs : List Attribute}
    {m m₁ m' : Method} (hm : m.SameParts m') (h : List.Forall₂ (Attribute.Rehandled pool) as bs)
    (ha : as.foldlM (absorb pool) m = .ok m₁) : ∃ m₁', bs.foldlM (absorb pool) m' = .ok m₁' := by
  induction h generalizing m m' with
  | nil => exact ⟨m', rfl⟩
  | cons hab _ ih =>
    rw [List.foldlM_cons] at ha
    obtain ⟨m₂, hfirst, hrest⟩ := bind_eq_ok_iff.1 ha
    obtain ⟨m₂', hfirst', hm₂⟩ := exists_absorb_rehandled hm hab hfirst
    obtain ⟨m₁', hrest'⟩ := ih hm₂ hrest
    refine ⟨m₁', ?_⟩
    rw [List.foldlM_cons, hfirst']
    exact hrest'

end Method

theorem MethodLayout.Relinked.exists_describes {pool : ConstantPool} {l l' : MethodLayout}
    (h : l.Relinked pool l') {m : Method} (hd : l.Describes pool m) :
    ∃ m', l'.Describes pool m' := by
  have habsorb := Method.absorbAll_eq_ok_iff.2 ⟨hd.access, rfl, rfl, hd.attributes⟩
  obtain ⟨m₁, hfold, -⟩ := bind_eq_ok_iff.1 habsorb
  have hsame : Method.SameParts (.bare l.access m.name m.descriptor)
      (.bare l.access m.name m.descriptor) := ⟨Iff.rfl, rfl, rfl⟩
  obtain ⟨m₁', hfold'⟩ := Method.exists_foldlM_absorb_rehandled hsame h.attributes hfold
  have habsorb' : Method.absorbAll pool (.bare l.access m.name m.descriptor) l'.attributes =
      .ok { m₁' with order := m₁'.order.reverse } := by
    rw [Method.absorbAll, hfold']
    rfl
  obtain ⟨haccess, hname, hdescriptor, hattributes⟩ := Method.absorbAll_eq_ok_iff.1 habsorb'
  refine ⟨_, ?_, ?_, ?_, hattributes⟩
  · rw [haccess, h.access]
  · rw [hname, h.name]
    exact hd.name
  · rw [hdescriptor, h.descriptor]
    exact hd.descriptor

namespace ClassFile

theorem exists_read_relinked {l l' : ClassLayout} {c : ClassFile} (h : l.Relinked l')
    (hf : l.Fits) (hd : l.Describes c) : ∃ c', read l'.encode = .ok c' := by
  have hexists : List.Forall₂ (fun l₁' (_ : Method) => ∃ m', l₁'.Describes l.pool m' ∧ True)
      l'.methods c.methods := by
    apply (forall₂_join h.methods hd.methods).imp
    intro l₁' m hjoined
    obtain ⟨l₁, hl, hm⟩ := hjoined
    obtain ⟨m', hm'⟩ := hl.exists_describes hm
    exact ⟨m', hm', trivial⟩
  obtain ⟨methods, hmethods, -⟩ := exists_forall₂ hexists
  refine ⟨⟨l'.minor, l'.major, l'.pool, l'.access, c.name, c.superName, l'.interfaces, l'.fields,
    methods, l'.attributes⟩, read_eq_ok_iff.2 ⟨l', ClassLayout.parse_eq_ok_iff.2 ⟨rfl, h.fits hf⟩,
      rfl, rfl, rfl, rfl, ?_, ?_, rfl, rfl, ?_, rfl⟩⟩
  · rw [h.pool, h.name]
    exact hd.name
  · rw [h.pool, h.superName]
    exact hd.superName
  · rw [h.pool]
    exact hmethods

/-- The indices that a class is read by lead to what belongs there; the others may be any. -/
theorem lookups_of_read {octets : Bytes} {c : ClassFile} (h : read octets = .ok c) :
    ∃ l, ClassLayout.parse octets = .ok l ∧ LooksUp l c ∧
      ∀ l', l.Relinked l' → ∃ c', read l'.encode = .ok c' := by
  obtain ⟨l, hl, hd⟩ := read_eq_ok_iff.1 h
  obtain ⟨-, hf⟩ := ClassLayout.parse_eq_ok_iff.1 hl
  exact ⟨l, hl, hd.looksUp, fun l' hl' => exists_read_relinked hl' hf hd⟩

theorem lookups_of_read_sample :
    read ClassLayout.sample.encode = .ok sample ∧
      ∃ l, ClassLayout.parse ClassLayout.sample.encode = .ok l ∧ LooksUp l sample ∧
        ∀ l', l.Relinked l' → ∃ c', read l'.encode = .ok c' :=
  ⟨read_sample, lookups_of_read read_sample⟩

end ClassFile

/-! ## A class with a dangling index -/

deriving instance DecidableEq for ClassLayout

/-- A class with an attribute that is named by an index behind the end of the pool. -/
def ClassLayout.dangling : ClassLayout where
  minor := 0
  major := 52
  pool := ⟨#[.utf8 (ModifiedUtf8.encode "A"), .class 1], by decide⟩
  access := 0x21
  name := 2
  superName := 0
  interfaces := []
  fields := []
  methods := []
  attributes := [⟨99, []⟩]

def ClassFile.dangling : ClassFile where
  minor := 0
  major := 52
  pool := ClassLayout.dangling.pool
  access := 0x21
  name := "A"
  superName := none
  interfaces := []
  fields := []
  methods := []
  attributes := [⟨99, []⟩]

theorem ClassFile.read_dangling :
    ClassLayout.parse ClassLayout.dangling.encode = .ok .dangling ∧
      read ClassLayout.dangling.encode = .ok dangling ∧ ¬ Linked .dangling dangling := by
  refine ⟨by decide +kernel, by decide +kernel, ?_⟩
  intro h
  obtain ⟨octets, hoctets⟩ := h.attributes ⟨99, []⟩ List.mem_cons_self
  have hget : ClassLayout.dangling.pool.get 99 = .error (.invalidConstant 99 .outOfRange) := rfl
  rw [hget] at hoctets
  cases hoctets

end PlatformLink
