import PlatformLink.Proofs.AnnotationGrammar
import PlatformLink.Proofs.ClassLayout

/-! # What a class says about its octets

`ClassFile.read_eq_ok_iff`: to read a class is to lay it out and to look its indices up
(`ClassLayout.Describes`). The attributes of a method are taken one by one, and which of them are
taken apart depends on those before; `Method.Attributed` says of the finished method what that
comes to, and `Method.absorbAll_eq_ok_iff` that it is all.
-/

namespace PlatformLink
set_option autoImplicit false

open Reader

/-! ## Places -/

/-- The name of the attributes that a place is for. -/
def Place.attributeName? : Place → Option String
  | .body => some bodyName
  | .visible => some visibleName
  | .invisible => some invisibleName
  | .other _ => none

namespace Method

/-- Whether a method has what stands at a place. -/
def has (m : Method) : Place → Bool
  | .body => m.body.isSome
  | .visible => m.visible.isSome
  | .invisible => m.invisible.isSome
  | .other _ => true

/-- A method without the part at a place. -/
def clear (m : Method) : Place → Method
  | .body => { m with body := none }
  | .visible => { m with visible := none }
  | .invisible => { m with invisible := none }
  | .other _ => m

/-- The attribute at a place of a method holds what the method has there. -/
def Decodes (pool : ConstantPool) (m : Method) : Place → Attribute → Prop
  | .body, item => pool.text item.name = .ok bodyName ∧
    ∃ body, m.body = some body ∧ Reader.parse (Body.read pool) item.payload = .ok body
  | .visible, item => pool.text item.name = .ok visibleName ∧
    ∃ entries, m.visible = some entries ∧ Annotations.decode pool item.payload = .ok entries
  | .invisible, item => pool.text item.name = .ok invisibleName ∧
    ∃ entries, m.invisible = some entries ∧ Annotations.decode pool item.payload = .ok entries
  | .other kept, item => item = kept ∧ ∃ name, pool.text item.name = .ok name

/-- What may stand after some places: a part that is not among them, or an attribute whose name
is that of no part that is still to come. -/
def Admits (pool : ConstantPool) (before : List Place) : Place → Prop
  | .other kept => ∀ part name, part.attributeName? = some name →
    pool.text kept.name = .ok name → part ∈ before
  | part => part ∉ before

/-- Places, the last one first, of which each may stand after those before. -/
def Ordered (pool : ConstantPool) : List Place → Prop
  | [] => True
  | place :: before => Admits pool before place ∧ Ordered pool before

/-- The method was read with these attributes. -/
structure Attributed (pool : ConstantPool) (m : Method) (attributes : List Attribute) : Prop where
  decodes : List.Forall₂ (m.Decodes pool) m.order attributes
  ordered : Ordered pool m.order.reverse
  parts : ∀ part name, part.attributeName? = some name → (m.has part = true ↔ part ∈ m.order)

theorem Decodes.has {pool : ConstantPool} {m : Method} {place : Place} {item : Attribute}
    (h : m.Decodes pool place item) : m.has place = true := by
  cases place with
  | body =>
    obtain ⟨-, body, hb, -⟩ := h
    simp [Method.has, hb]
  | visible =>
    obtain ⟨-, entries, he, -⟩ := h
    simp [Method.has, he]
  | invisible =>
    obtain ⟨-, entries, he, -⟩ := h
    simp [Method.has, he]
  | other kept => rfl

theorem has_clear_self {m : Method} {place : Place} {name : String}
    (h : place.attributeName? = some name) : (m.clear place).has place = false := by
  cases place with
  | other kept => cases h
  | _ => rfl

theorem has_clear_of_ne {m : Method} {place part : Place} (h : part ≠ place) :
    (m.clear place).has part = m.has part := by
  cases place <;> cases part <;> first | rfl | exact absurd rfl h

theorem Decodes.of_clear {pool : ConstantPool} {m : Method} (place : Place) {p : Place}
    {item : Attribute} (h : (m.clear place).Decodes pool p item) : m.Decodes pool p item := by
  cases place <;> cases p <;> first | exact h | exact absurd h.has Bool.false_ne_true

theorem Decodes.clear_of_ne {pool : ConstantPool} {m : Method} {place p : Place} {item : Attribute}
    (h : m.Decodes pool p item) (hne : p ≠ place) : (m.clear place).Decodes pool p item := by
  cases place <;> cases p <;> first | exact h | exact absurd rfl hne

/-- The parts that attributes of this name are for are all there. -/
theorem has_of_attributeName?_iff {m : Method} {name : String} :
    (∀ part, part.attributeName? = some name → m.has part = true) ↔
      ¬ (name = bodyName ∧ m.body = none) ∧ ¬ (name = visibleName ∧ m.visible = none) ∧
        ¬ (name = invisibleName ∧ m.invisible = none) := by
  constructor
  · intro h
    refine ⟨?_, ?_, ?_⟩
    · rintro ⟨rfl, hnone⟩
      simpa [Method.has, hnone] using h .body rfl
    · rintro ⟨rfl, hnone⟩
      simpa [Method.has, hnone] using h .visible rfl
    · rintro ⟨rfl, hnone⟩
      simpa [Method.has, hnone] using h .invisible rfl
  · rintro ⟨hbody, hvisible, hinvisible⟩ part hpart
    cases part with
    | body =>
      cases hpart
      simpa [Method.has, Option.isSome_iff_ne_none] using hbody
    | visible =>
      cases hpart
      simpa [Method.has, Option.isSome_iff_ne_none] using hvisible
    | invisible =>
      cases hpart
      simpa [Method.has, Option.isSome_iff_ne_none] using hinvisible
    | other _ => cases hpart

/-! ## One attribute -/

/-- `m'` is `m` with one more place, in front, and the part there. -/
structure Absorbs (pool : ConstantPool) (m : Method) (item : Attribute) (place : Place)
    (m' : Method) : Prop where
  order : m'.order = place :: m.order
  before : { m'.clear place with order := m.order } = m
  decodes : m'.Decodes pool place item
  repeated : ∀ kept part name, place = .other kept → part.attributeName? = some name →
    pool.text kept.name = .ok name → m.has part = true

theorem absorbs_of_absorb {pool : ConstantPool} {m m' : Method} {item : Attribute}
    (h : absorb pool m item = .ok m') : ∃ place, Absorbs pool m item place m' := by
  unfold absorb at h
  obtain ⟨name, hname, h⟩ := bind_eq_ok_iff.1 h
  by_cases hb : name = bodyName ∧ m.body = none
  · rw [if_pos hb] at h
    obtain ⟨body, hr, h⟩ := bind_eq_ok_iff.1 h
    obtain ⟨rfl, hnone⟩ := hb
    cases h
    refine ⟨.body, rfl, ?_, ⟨hname, body, rfl, hr⟩, by simp⟩
    simp only [clear, ← hnone]
  rw [if_neg hb] at h
  by_cases hv : name = visibleName ∧ m.visible = none
  · rw [if_pos hv] at h
    obtain ⟨entries, hr, h⟩ := bind_eq_ok_iff.1 h
    obtain ⟨rfl, hnone⟩ := hv
    cases h
    refine ⟨.visible, rfl, ?_, ⟨hname, entries, rfl, hr⟩, by simp⟩
    simp only [clear, ← hnone]
  rw [if_neg hv] at h
  by_cases hi : name = invisibleName ∧ m.invisible = none
  · rw [if_pos hi] at h
    obtain ⟨entries, hr, h⟩ := bind_eq_ok_iff.1 h
    obtain ⟨rfl, hnone⟩ := hi
    cases h
    refine ⟨.invisible, rfl, ?_, ⟨hname, entries, rfl, hr⟩, by simp⟩
    simp only [clear, ← hnone]
  rw [if_neg hi] at h
  cases h
  refine ⟨.other item, rfl, rfl, ⟨rfl, name, hname⟩, ?_⟩
  rintro kept part found ⟨rfl⟩ hpart hfound
  obtain rfl : name = found := Except.ok.inj (hname.symm.trans hfound)
  exact has_of_attributeName?_iff.2 ⟨hb, hv, hi⟩ part hpart

theorem Absorbs.absorb_eq {pool : ConstantPool} {m m' : Method} {item : Attribute} {place : Place}
    (h : Absorbs pool m item place m') : absorb pool m item = .ok m' := by
  obtain ⟨horder, hbefore, hdecodes, hrepeated⟩ := h
  have hvb : visibleName ≠ bodyName := by decide
  have hib : invisibleName ≠ bodyName := by decide
  have hiv : invisibleName ≠ visibleName := by decide
  cases place with
  | body =>
    obtain ⟨hname, body, hbody, hr⟩ := hdecodes
    rw [← hbefore]
    simp only [absorb, hname, bind, Except.bind, clear, and_self, if_true, hr, pure, Except.pure,
      ← horder, ← hbody]
  | visible =>
    obtain ⟨hname, entries, hentries, hr⟩ := hdecodes
    rw [← hbefore]
    simp only [absorb, hname, bind, Except.bind, clear, hvb, false_and, if_false, and_self, if_true,
      hr, pure, Except.pure, ← horder, ← hentries]
  | invisible =>
    obtain ⟨hname, entries, hentries, hr⟩ := hdecodes
    rw [← hbefore]
    simp only [absorb, hname, bind, Except.bind, clear, hib, hiv, false_and, if_false, and_self,
      if_true, hr, pure, Except.pure, ← horder, ← hentries]
  | other kept =>
    obtain ⟨rfl, name, hname⟩ := hdecodes
    have hparts (part : Place) (hp : part.attributeName? = some name) : m.has part = true :=
      hrepeated item part name rfl hp hname
    obtain ⟨hb, hv, hi⟩ := has_of_attributeName?_iff.1 hparts
    simp only [absorb, hname, bind, Except.bind, hb, hv, hi, if_false, pure, Except.pure, ← horder]
    rw [← hbefore]
    simp only [clear]

theorem absorb_eq_ok_iff {pool : ConstantPool} {m m' : Method} {item : Attribute} :
    absorb pool m item = .ok m' ↔ ∃ place, Absorbs pool m item place m' :=
  ⟨absorbs_of_absorb, fun ⟨_, h⟩ => h.absorb_eq⟩

/-! ## All attributes -/

/-- The method came to be by these attributes; they and its places stand last one first. -/
structure Taken (pool : ConstantPool) (m : Method) (items : List Attribute) : Prop where
  decodes : List.Forall₂ (m.Decodes pool) m.order items
  ordered : Ordered pool m.order
  parts : ∀ part name, part.attributeName? = some name → (m.has part = true ↔ part ∈ m.order)

theorem Taken.step {pool : ConstantPool} {m m' : Method} {item : Attribute} {place : Place}
    {items : List Attribute} (ht : Taken pool m items) (ha : Absorbs pool m item place m') :
    Taken pool m' (item :: items) := by
  have hhas (part : Place) : m.has part = (m'.clear place).has part := by
    rw [← ha.before]
    cases part <;> rfl
  refine ⟨?_, ?_, ?_⟩
  · rw [ha.order]
    refine .cons ha.decodes (ht.decodes.imp fun p x hp => Decodes.of_clear place ?_)
    rw [← ha.before] at hp
    cases p <;> exact hp
  · rw [ha.order]
    refine ⟨?_, ht.ordered⟩
    have absent (part : Place) (name : String) (hp : part.attributeName? = some name)
        (he : place = part) : part ∉ m.order := by
      intro hmem
      have hm := (ht.parts part name hp).2 hmem
      rw [hhas, he, has_clear_self hp] at hm
      cases hm
    cases place with
    | body => exact absent .body bodyName rfl rfl
    | visible => exact absent .visible visibleName rfl rfl
    | invisible => exact absent .invisible invisibleName rfl rfl
    | other kept =>
      intro part name hp hname
      exact (ht.parts part name hp).1 (ha.repeated kept part name rfl hp hname)
  · intro part name hp
    rw [ha.order, List.mem_cons]
    by_cases he : part = place
    · rw [he]
      simp [ha.decodes.has]
    · rw [← has_clear_of_ne he, ← hhas, ht.parts part name hp]
      simp [he]

theorem Taken.unstep {pool : ConstantPool} {m' : Method} {item : Attribute}
    {items : List Attribute} (ht : Taken pool m' (item :: items)) :
    ∃ place earlier, m'.order = place :: earlier ∧
      Absorbs pool { m'.clear place with order := earlier } item place m' ∧
        Taken pool { m'.clear place with order := earlier } items := by
  obtain ⟨hdecodes, hordered, hparts⟩ := ht
  cases horder : m'.order with
  | nil =>
    rw [horder] at hdecodes
    cases hdecodes
  | cons place earlier =>
    rw [horder] at hdecodes hordered hparts
    obtain ⟨hitem, hitems⟩ := List.forall₂_cons.1 hdecodes
    obtain ⟨hadmits, hordered⟩ := hordered
    -- clearing `place` must not take away what an earlier attribute was read for
    have absent {name : String} (hp : place.attributeName? = some name) : place ∉ earlier := by
      cases place with
      | other kept => cases hp
      | _ => exact hadmits
    have hparts' (part : Place) (name : String) (hp : part.attributeName? = some name) :
        (m'.clear place).has part = true ↔ part ∈ earlier := by
      by_cases he : part = place
      · rw [← he] at absent ⊢
        rw [has_clear_self hp]
        simp [absent hp]
      · rw [has_clear_of_ne he, hparts part name hp, List.mem_cons]
        simp [he]
    have hkeep : List.Forall₂ ((m'.clear place).Decodes pool) earlier items := by
      cases place with
      | other kept => exact hitems
      | _ =>
        have hne (p : Place) (hp : p ∈ earlier) := ne_of_mem_of_not_mem hp (absent rfl)
        exact ((List.forall₂_and_left _ _).2 ⟨hne, hitems⟩).imp fun p x h => h.2.clear_of_ne h.1
    refine ⟨place, earlier, rfl, ⟨horder, rfl, hitem, ?_⟩, hkeep, hordered, ?_⟩
    · rintro kept part name rfl hp hname
      exact (hparts' part name hp).2 (hadmits part name hp hname)
    · exact hparts'

theorem absorbAfter_eq_ok_iff {pool : ConstantPool} {access : UInt16} {name descriptor : String}
    {items : List Attribute} {m : Method} :
    items.foldrM (fun item m => absorb pool m item) (bare access name descriptor) = .ok m ↔
      m.access = access ∧ m.name = name ∧ m.descriptor = descriptor ∧ Taken pool m items := by
  induction items generalizing m with
  | nil =>
    simp only [List.foldrM_nil, pure, Except.pure, Except.ok.injEq]
    constructor
    · rintro rfl
      refine ⟨rfl, rfl, rfl, .nil, trivial, fun part name hp => ?_⟩
      cases part with
      | other kept => cases hp
      | _ => simp [has, bare]
    · rintro ⟨rfl, rfl, rfl, hdecodes, -, hparts⟩
      obtain ⟨access, name, descriptor, body, visible, invisible, order⟩ := m
      cases hdecodes
      have hb := hparts .body bodyName rfl
      have hv := hparts .visible visibleName rfl
      have hi := hparts .invisible invisibleName rfl
      simp only [has, List.not_mem_nil, iff_false, Bool.not_eq_true,
        Option.isSome_eq_false_iff, Option.isNone_iff_eq_none] at hb hv hi
      subst hb hv hi
      rfl
  | cons item items ih =>
    rw [List.foldrM_cons]
    constructor
    · intro h
      obtain ⟨m₀, hr, hlast⟩ := bind_eq_ok_iff.1 h
      obtain ⟨rfl, rfl, rfl, ht⟩ := ih.1 hr
      obtain ⟨place, ha⟩ := absorb_eq_ok_iff.1 hlast
      refine ⟨?_, ?_, ?_, ht.step ha⟩
      all_goals
        rw [← ha.before]
        cases place <;> rfl
    · rintro ⟨rfl, rfl, rfl, ht⟩
      obtain ⟨place, earlier, -, ha, ht'⟩ := ht.unstep
      have hr := ih.2 ⟨by cases place <;> rfl, by cases place <;> rfl, by cases place <;> rfl, ht'⟩
      exact bind_eq_ok_iff.2 ⟨_, hr, ha.absorb_eq⟩

theorem taken_reverse_iff {pool : ConstantPool} {m : Method} {attributes : List Attribute} :
    Taken pool { m with order := m.order.reverse } attributes.reverse ↔
      m.Attributed pool attributes := by
  constructor
  · rintro ⟨hdecodes, hordered, hparts⟩
    exact ⟨List.forall₂_reverse_iff.1 hdecodes, hordered,
      fun part name hp => (hparts part name hp).trans List.mem_reverse⟩
  · rintro ⟨hdecodes, hordered, hparts⟩
    exact ⟨List.forall₂_reverse_iff.2 hdecodes, hordered,
      fun part name hp => (hparts part name hp).trans List.mem_reverse.symm⟩

/-- What taking the attributes one after another comes to. -/
theorem absorbAll_eq_ok_iff {pool : ConstantPool} {access : UInt16} {name descriptor : String}
    {attributes : List Attribute} {m : Method} :
    absorbAll pool (.bare access name descriptor) attributes = .ok m ↔
      m.access = access ∧ m.name = name ∧ m.descriptor = descriptor ∧
        m.Attributed pool attributes := by
  -- the induction is on the last attribute, so the fold is taken from the other end
  have hiff (m : Method) := @absorbAfter_eq_ok_iff pool access name descriptor attributes.reverse m
  simp only [List.foldrM_reverse] at hiff
  have hm := hiff { m with order := m.order.reverse }
  rw [taken_reverse_iff] at hm
  rw [absorbAll, bind_eq_ok_iff, ← hm]
  constructor
  · rintro ⟨m₀, hr, h⟩
    cases h
    simpa only [List.reverse_reverse] using hr
  · intro hr
    refine ⟨_, hr, ?_⟩
    simp only [List.reverse_reverse, pure, Except.pure]

end Method

/-! ## Methods and classes -/

/-- `m` is the method of the layout, with the texts under its indices. -/
structure MethodLayout.Describes (pool : ConstantPool) (l : MethodLayout) (m : Method) : Prop where
  access : m.access = l.access
  name : pool.text l.name = .ok m.name
  descriptor : pool.text l.descriptor = .ok m.descriptor
  attributes : m.Attributed pool l.attributes

theorem Method.reads_read (pool : ConstantPool) :
    Reads (Method.read pool) fun word m =>
      ∃ l : MethodLayout, word = l.encode ∧ l.Fits ∧ l.Describes pool m := by
  have htext := Annotations.reads_readText pool
  have h := Reads.u16.bind_word fun access => htext.bind fun name => htext.bind fun descriptor =>
    Attribute.reads_readAll.bind_valid fun attributes =>
      Reads.lift (absorbAll pool (.bare access name descriptor) attributes)
  refine h.congr fun word m => ?_
  constructor
  · rintro ⟨access, _, rfl, name, _, _, rfl, ⟨index, rfl, hname⟩, descriptor, _, _, rfl,
      ⟨index', rfl, hdescriptor⟩, attributes, _, rfl, hf, rfl, hm⟩
    obtain ⟨rfl, rfl, rfl, hattributes⟩ := absorbAll_eq_ok_iff.1 hm
    refine ⟨⟨m.access, index, index', attributes⟩, ?_, hf, rfl, hname, hdescriptor, hattributes⟩
    rw [List.append_nil, MethodLayout.encode]
  · rintro ⟨l, rfl, hf, haccess, hname, hdescriptor, hattributes⟩
    have hm := absorbAll_eq_ok_iff.2 ⟨haccess, rfl, rfl, hattributes⟩
    exact ⟨l.access, _, rfl, m.name, _, _, rfl, ⟨l.name, rfl, hname⟩, m.descriptor, _, _, rfl,
      ⟨l.descriptor, rfl, hdescriptor⟩, l.attributes, [], (List.append_nil _).symm, hf, rfl, hm⟩

namespace ClassFile

theorem reads_readName (pool : ConstantPool) :
    Reads (readName pool) fun word name =>
      ∃ index, word = be16 index ∧ pool.className index = .ok name :=
  Reads.lookup pool.className

/-- The name under the index of a super class; index 0 stands for none. -/
def SuperName (pool : ConstantPool) (index : UInt16) : Option String → Prop
  | none => index = 0
  | some name => index ≠ 0 ∧ pool.className index = .ok name

theorem reads_readSuperName (pool : ConstantPool) :
    Reads (readSuperName pool) fun word name =>
      ∃ index, word = be16 index ∧ SuperName pool index name := by
  have hsome (index : UInt16) := (Reads.lift (pool.className index)).map some
  have h := Reads.u16.bind_word fun index => (Reads.pure none).ite (p := index = 0) (hsome index)
  refine h.congr fun word name => ?_
  constructor
  · rintro ⟨index, _, rfl, hs⟩
    by_cases hz : index = 0
    · rw [if_pos hz] at hs
      obtain ⟨rfl, rfl⟩ := hs
      exact ⟨index, List.append_nil _, hz⟩
    · rw [if_neg hz] at hs
      obtain ⟨name, ⟨rfl, hname⟩, rfl⟩ := hs
      exact ⟨index, List.append_nil _, hz, hname⟩
  · rintro ⟨index, rfl, hs⟩
    refine ⟨index, [], (List.append_nil _).symm, ?_⟩
    cases name with
    | none =>
      have hz : index = 0 := hs
      rw [if_pos hz]
      exact ⟨rfl, rfl⟩
    | some name =>
      rw [if_neg hs.1]
      exact ⟨name, ⟨rfl, hs.2⟩, rfl⟩

end ClassFile

/-- `c` is the class of the layout, with the texts under its indices. -/
structure ClassLayout.Describes (l : ClassLayout) (c : ClassFile) : Prop where
  minor : c.minor = l.minor
  major : c.major = l.major
  pool : c.pool = l.pool
  access : c.access = l.access
  name : l.pool.className l.name = .ok c.name
  superName : ClassFile.SuperName l.pool l.superName c.superName
  interfaces : c.interfaces = l.interfaces
  fields : c.fields = l.fields
  methods : List.Forall₂ (MethodLayout.Describes l.pool) l.methods c.methods
  attributes : c.attributes = l.attributes

namespace ClassFile

theorem reads_readFront :
    Reads readFront fun word c => ∃ l : ClassLayout, word = l.encode ∧ l.Fits ∧ l.Describes c := by
  have h := ClassLayout.reads_afterMagic <| Reads.u16.bind_word fun minor =>
    Reads.u16.bind_word fun major => ConstantPool.reads_read.bind_valid fun pool =>
      Reads.u16.bind_word fun access => (reads_readName pool).bind fun name =>
        (reads_readSuperName pool).bind fun superName =>
          Reads.u16.counted16_words.bind_valid fun interfaces =>
            Field.reads_read.counted16_flatMap.bind_valid fun fields =>
              (Method.reads_read pool).counted16.bind fun methods =>
                Attribute.reads_readAll.map (ClassFile.mk minor major pool access name superName
                  interfaces fields methods)
  refine h.congr fun word c => ?_
  simp only [sequence_iff_forall₂ (fun _ _ => Iff.rfl)]
  constructor
  · rintro ⟨_, rfl, minor, _, rfl, major, _, rfl, pool, _, rfl, hpool, access, _, rfl,
      name, _, _, rfl, ⟨nameIndex, rfl, hname⟩, superName, _, _, rfl, ⟨superIndex, rfl, hsuper⟩,
      interfaces, _, rfl, hi, fields, _, rfl, hf,
      methods, _, _, rfl, ⟨_, rfl, hm, layouts, rfl, hlayouts⟩, attributes, ⟨rfl, ha⟩, rfl⟩
    obtain ⟨hfits, hdescribes⟩ := (List.forall₂_and_left _ _).1 hlayouts
    refine ⟨⟨minor, major, pool, access, nameIndex, superIndex, interfaces, fields, layouts,
      attributes⟩, ?_, ⟨hpool, hi, hf, ⟨hdescribes.length_eq ▸ hm, hfits⟩, ha⟩,
      ⟨rfl, rfl, rfl, rfl, hname, hsuper, rfl, rfl, hdescribes, rfl⟩⟩
    simp only [ClassLayout.encode, ClassLayout.encodeMembers, List.append_assoc,
      hdescribes.length_eq]
  · rintro ⟨l, rfl, ⟨hpool, hi, hf, ⟨hm, hfits⟩, ha⟩, hd⟩
    obtain ⟨minor, major, pool, access, name, superName, interfaces, fields, methods,
      attributes⟩ := c
    obtain ⟨rfl, rfl, rfl, rfl, hname, hsuper, rfl, rfl, hmethods, rfl⟩ := hd
    have hlayouts := (List.forall₂_and_left _ _).2 ⟨hfits, hmethods⟩
    have hlength := hmethods.length_eq
    have hmembers : l.encodeMembers = be16 l.access ++ (be16 l.name ++ (be16 l.superName ++
        ((count16 l.interfaces.length ++ l.interfaces.flatMap be16) ++
          ((count16 l.fields.length ++ l.fields.flatMap Field.encode) ++
            ((count16 methods.length ++ l.methods.flatMap MethodLayout.encode) ++
              Attribute.encodeAll l.attributes))))) := by
      simp only [ClassLayout.encodeMembers, List.append_assoc, hlength]
    exact ⟨_, rfl, l.minor, _, rfl, l.major, _, rfl, l.pool, _, rfl, hpool, l.access, _, hmembers,
      name, _, _, rfl, ⟨l.name, rfl, hname⟩, superName, _, _, rfl, ⟨l.superName, rfl, hsuper⟩,
      l.interfaces, _, rfl, hi, l.fields, _, rfl, hf,
      methods, _, _, rfl, ⟨_, rfl, hlength ▸ hm, l.methods, rfl, hlayouts⟩,
      l.attributes, ⟨rfl, ha⟩, rfl⟩

/-- To read a class is to lay it out and to look its indices up. -/
theorem read_eq_ok_iff {octets : Bytes} {c : ClassFile} :
    read octets = .ok c ↔ ∃ l, ClassLayout.parse octets = .ok l ∧ l.Describes c := by
  simp only [ClassLayout.parse_eq_ok_iff, and_assoc]
  exact reads_readFront.parse_atEnd_eq_ok_iff octets c

end ClassFile

/-! ## A class -/

deriving instance DecidableEq for ClassFile

/-- A class with a native method that is marked, and one with a body. -/
def ClassLayout.sample : ClassLayout where
  minor := 0
  major := 52
  pool := ⟨#[.utf8 (ModifiedUtf8.encode "a/B"), .class 1,
    .utf8 (ModifiedUtf8.encode "java/lang/Object"), .class 3, .utf8 (ModifiedUtf8.encode "f"),
    .utf8 (ModifiedUtf8.encode "(JI)I"), .utf8 (ModifiedUtf8.encode "RuntimeInvisibleAnnotations"),
    .utf8 (ModifiedUtf8.encode "Ldev/architectury/annotations/ExpectPlatform;"),
    .utf8 (ModifiedUtf8.encode "g"), .utf8 (ModifiedUtf8.encode "()V"),
    .utf8 (ModifiedUtf8.encode "Code")], by decide⟩
  access := 0x21
  name := 2
  superName := 4
  interfaces := []
  fields := []
  methods := [⟨0x109, 5, 6, [⟨7, [0, 1, 0, 8, 0, 0]⟩]⟩,
    ⟨0x009, 9, 10, [⟨11, [0, 0, 0, 0, 0, 0, 0, 1, 0xb1, 0, 0, 0, 0]⟩]⟩]
  attributes := []

def ClassFile.sample : ClassFile where
  minor := 0
  major := 52
  pool := ClassLayout.sample.pool
  access := 0x21
  name := "a/B"
  superName := some "java/lang/Object"
  interfaces := []
  fields := []
  methods := [⟨0x109, "f", "(JI)I", none, none,
      some [.marker "Ldev/architectury/annotations/ExpectPlatform;"], [.invisible]⟩,
    ⟨0x009, "g", "()V", some ⟨some ⟨0, 0⟩, [.raw [0xb1]], [], []⟩, none, none, [.body]⟩]
  attributes := []

theorem ClassFile.read_sample : read ClassLayout.sample.encode = .ok sample := by
  decide +kernel

end PlatformLink
