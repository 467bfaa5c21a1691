import PlatformLink.Descriptor

/-! # Reading a descriptor that was rendered

`MethodDescriptor.IsWellFormed` are the descriptors of methods: parameters and the return type are
field types (`JvmType.IsField`), and plain `void` may be returned. Each part of such a descriptor is
read back from its text whatever follows the text, and the whole when nothing does:
`MethodDescriptor.ofString_render`. What is asked of a descriptor that is read back is less
(`MethodDescriptor.IsReadable`: arrays may hold `void` too), and of one that a text starts with less
still (`MethodDescriptor.IsDelimited`).
-/

namespace PlatformLink
set_option autoImplicit false

/-! ## Well-formed types -/

/-- A class has a name, and the name ends at the first `;`. -/
def Element.HasClassName : Element → Prop
  | .object name => name ≠ "" ∧ ';' ∉ name.toList
  | _ => True

instance (e : Element) : Decidable e.HasClassName :=
  match e with
  | .primitive _ => .isTrue trivial
  | .void => .isTrue trivial
  | .object name => inferInstanceAs (Decidable (name ≠ "" ∧ ';' ∉ name.toList))

/-- A name that its text ends, if it is one of a class. -/
def Element.IsDelimited : Element → Prop
  | .object name => ';' ∉ name.toList
  | _ => True

theorem Element.hasClassName_iff {e : Element} :
    e.HasClassName ↔ e.IsDelimited ∧ e ≠ .object "" := by
  cases e with
  | object name => simp [HasClassName, IsDelimited, and_comm]
  | _ => simp [HasClassName, IsDelimited]

/-- The type of a field or a parameter. -/
structure JvmType.IsField (type : JvmType) : Prop where
  dimensions : type.dimensions ≤ 255
  className : type.element.HasClassName
  not_void : type.element ≠ .void

instance (type : JvmType) : Decidable type.IsField :=
  decidable_of_iff
    (type.dimensions ≤ 255 ∧ type.element.HasClassName ∧ type.element ≠ .void)
    ⟨fun ⟨hd, hc, hv⟩ => ⟨hd, hc, hv⟩, fun ⟨hd, hc, hv⟩ => ⟨hd, hc, hv⟩⟩

/-- A type that is read back from its text. -/
structure JvmType.IsReadable (type : JvmType) : Prop where
  dimensions : type.dimensions ≤ 255
  className : type.element.HasClassName

structure JvmType.IsDelimited (type : JvmType) : Prop where
  dimensions : type.dimensions ≤ 255
  element : type.element.IsDelimited

theorem JvmType.isReadable_iff {type : JvmType} :
    type.IsReadable ↔ type.IsDelimited ∧ type.hasName = true := by
  rw [JvmType.hasName, bne_iff_ne]
  constructor
  · intro h
    obtain ⟨helement, hne⟩ := Element.hasClassName_iff.1 h.className
    exact ⟨⟨h.dimensions, helement⟩, hne⟩
  · rintro ⟨h, hne⟩
    exact ⟨h.dimensions, Element.hasClassName_iff.2 ⟨h.element, hne⟩⟩

theorem JvmType.IsField.isReadable {type : JvmType} (h : type.IsField) : type.IsReadable :=
  ⟨h.dimensions, h.className⟩

def JvmType.void : JvmType := ⟨0, .void⟩

def JvmType.ofPrimitive (type : Primitive) : JvmType := ⟨0, .primitive type⟩

structure MethodDescriptor.IsWellFormed (d : MethodDescriptor) : Prop where
  parameters : ∀ type ∈ d.parameters, type.IsField
  returnType : d.returnType.IsField ∨ d.returnType = .void

instance (d : MethodDescriptor) : Decidable d.IsWellFormed :=
  decidable_of_iff
    ((∀ type ∈ d.parameters, type.IsField) ∧ (d.returnType.IsField ∨ d.returnType = .void))
    ⟨fun ⟨hp, hr⟩ => ⟨hp, hr⟩, fun ⟨hp, hr⟩ => ⟨hp, hr⟩⟩

/-- A descriptor that is read back from its text. -/
structure MethodDescriptor.IsReadable (d : MethodDescriptor) : Prop where
  parameters : ∀ type ∈ d.parameters, type.IsReadable ∧ type.isVoid = false
  returnType : d.returnType.IsReadable

structure MethodDescriptor.IsDelimited (d : MethodDescriptor) : Prop where
  parameters : ∀ type ∈ d.parameters, type.IsDelimited
  returnType : d.returnType.IsDelimited

/-- What the checks ask of a descriptor that a text starts with. -/
theorem MethodDescriptor.isReadable_iff {d : MethodDescriptor} :
    d.IsReadable ↔ d.IsDelimited ∧ d.isProper = true := by
  simp only [isProper, Bool.and_eq_true, List.all_eq_true, Bool.not_eq_true']
  constructor
  · intro h
    obtain ⟨hreturn, hname⟩ := JvmType.isReadable_iff.1 h.returnType
    refine ⟨⟨fun type htype => ?_, hreturn⟩, fun type htype => ?_, hname⟩
    · exact (JvmType.isReadable_iff.1 (h.parameters type htype).1).1
    · obtain ⟨hread, hvoid⟩ := h.parameters type htype
      exact ⟨hvoid, (JvmType.isReadable_iff.1 hread).2⟩
  · rintro ⟨h, hparameters, hname⟩
    refine ⟨fun type htype => ?_, JvmType.isReadable_iff.2 ⟨h.returnType, hname⟩⟩
    obtain ⟨hvoid, hname⟩ := hparameters type htype
    exact ⟨JvmType.isReadable_iff.2 ⟨h.parameters type htype, hname⟩, hvoid⟩

/-! ## Elements -/

@[simp] theorem Primitive.ofLetter?_letter (type : Primitive) :
    Primitive.ofLetter? type.letter = some type := by
  cases type <;> rfl

theorem className?_append {name : String} (hend : ';' ∉ name.toList) (rest : List Char) :
    className? (name.toList ++ ';' :: rest) = some (.object name, rest) := by
  have hinside : ∀ c ∈ name.toList, (c != ';') = true := by
    intro c hc
    rw [bne_iff_ne]
    rintro rfl
    exact hend hc
  have htake : (name.toList ++ ';' :: rest).takeWhile (· != ';') = name.toList := by
    rw [List.takeWhile_append_of_pos hinside]
    simp
  have hdrop : (name.toList ++ ';' :: rest).dropWhile (· != ';') = ';' :: rest := by
    rw [List.dropWhile_append_of_pos hinside]
    simp
  simp only [className?, htake, hdrop, String.ofList_toList]

/-- An element starts neither as an array nor as the end of the parameters. -/
theorem Element.exists_render_eq (e : Element) :
    ∃ c cs, e.render = c :: cs ∧ c ≠ '[' ∧ c ≠ ')' := by
  cases e with
  | primitive type => cases type <;> exact ⟨_, _, rfl, by decide, by decide⟩
  | void => exact ⟨_, _, rfl, by decide, by decide⟩
  | object name => exact ⟨_, _, rfl, by decide, by decide⟩

theorem Element.parse?_render {e : Element} (h : e.IsDelimited) (rest : List Char) :
    Element.parse? (e.render ++ rest) = some (e, rest) := by
  cases e with
  | primitive type =>
    simp only [Element.render, List.cons_append, List.nil_append, Element.parse?,
      Primitive.ofLetter?_letter]
  | void => rfl
  | object name =>
    have hrender : (Element.object name).render ++ rest = 'L' :: (name.toList ++ ';' :: rest) := by
      simp [Element.render]
    rw [hrender]
    exact className?_append h rest

/-! ## Types -/

namespace JvmType

theorem parse?_render {type : JvmType} (h : type.IsDelimited) (rest : List Char) :
    JvmType.parse? (type.render ++ rest) = some (type, rest) := by
  obtain ⟨c, cs, hrender, hc, -⟩ := type.element.exists_render_eq
  have hbrackets : ∀ c ∈ List.replicate type.dimensions '[', (c == '[') = true := by
    intro c hc
    rw [List.eq_of_mem_replicate hc, beq_self_eq_true]
  have hfalse : (c == '[') = false := beq_false_of_ne hc
  have htake : (type.render ++ rest).takeWhile (· == '[') = List.replicate type.dimensions '[' := by
    rw [JvmType.render, List.append_assoc, List.takeWhile_append_of_pos hbrackets, hrender]
    simp [hfalse]
  have hdrop : (type.render ++ rest).dropWhile (· == '[') = type.element.render ++ rest := by
    rw [JvmType.render, List.append_assoc, List.dropWhile_append_of_pos hbrackets, hrender]
    simp [hfalse]
  simp only [JvmType.parse?, htake, hdrop, List.length_replicate, if_pos h.dimensions,
    Element.parse?_render h.element, Option.map_some]

theorem exists_render_eq (type : JvmType) : ∃ c cs, type.render = c :: cs ∧ c ≠ ')' := by
  obtain ⟨c, cs, hrender, -, hc⟩ := type.element.exists_render_eq
  rw [JvmType.render]
  cases type.dimensions with
  | zero => exact ⟨c, cs, hrender, hc⟩
  | succ n => exact ⟨_, _, rfl, by decide⟩

theorem IsField.isVoid {type : JvmType} (h : type.IsField) : type.isVoid = false := by
  rw [JvmType.isVoid, beq_false_of_ne h.not_void, Bool.and_false]

theorem IsField.slots {type : JvmType} (h : type.IsField) :
    type.kind.slots = 1 + ((if type == ofPrimitive .long then 1 else 0) +
      (if type == ofPrimitive .double then 1 else 0)) := by
  obtain ⟨dimensions, element⟩ := type
  cases dimensions with
  | succ n => simp [kind, ValueKind.slots, ofPrimitive]
  | zero =>
    cases element with
    | primitive type => cases type <;> rfl
    | void => exact absurd rfl h.not_void
    | object name => simp [kind, ValueKind.slots, ofPrimitive]

/-- The slots of some types one after another. -/
def totalSlots (types : List JvmType) : Nat := types.foldr (fun type n => type.kind.slots + n) 0

theorem totalSlots_eq {types : List JvmType} (h : ∀ type ∈ types, type.IsField) :
    totalSlots types = types.length +
      (types.count (ofPrimitive .long) + types.count (ofPrimitive .double)) := by
  unfold totalSlots
  induction types with
  | nil => rfl
  | cons type types ih =>
    obtain ⟨htype, htypes⟩ := List.forall_mem_cons.1 h
    rw [List.foldr_cons, ih htypes, htype.slots, List.length_cons, List.count_cons,
      List.count_cons]
    omega

end JvmType

/-! ## Descriptors -/

namespace MethodDescriptor

theorem IsWellFormed.isReadable {d : MethodDescriptor} (h : d.IsWellFormed) : d.IsReadable where
  parameters type htype := ⟨(h.parameters type htype).isReadable, (h.parameters type htype).isVoid⟩
  returnType := by
    obtain hfield | hvoid := h.returnType
    · exact hfield.isReadable
    · rw [hvoid]
      exact ⟨Nat.zero_le _, trivial⟩

theorem parameters?_render_append {type : JvmType} (h : type.IsDelimited) (rest : List Char) :
    parameters? [] (type.render ++ rest) =
      (parameters? [] rest).map fun r => (type :: r.1, r.2) := by
  obtain ⟨c, cs, hrender, hc⟩ := type.exists_render_eq
  have hparse := JvmType.parse?_render h rest
  rw [hrender, List.cons_append] at hparse ⊢
  rw [parameters?]
  · split
    · rename_i hread
      rw [hparse] at hread
      cases hread
      rw [parameters?_eq [type]]
      rfl
    · rename_i hread
      rw [hparse] at hread
      cases hread
  · rintro rest' hclose
    cases hclose
    exact hc rfl

theorem parameters?_flatMap_render {types : List JvmType} (h : ∀ type ∈ types, type.IsDelimited)
    (rest : List Char) :
    parameters? [] (types.flatMap JvmType.render ++ ')' :: rest) = some (types, rest) := by
  induction types with
  | nil => exact parameters?_close rest
  | cons type types ih =>
    obtain ⟨hread, htypes⟩ := List.forall_mem_cons.1 h
    rw [List.flatMap_cons, List.append_assoc, parameters?_render_append hread, ih htypes]
    rfl

theorem parse?_render {d : MethodDescriptor} (h : d.IsDelimited) (rest : List Char) :
    parse? (d.render ++ rest) = some d := by
  have hrender : d.render ++ rest =
      '(' :: (d.parameters.flatMap JvmType.render ++ ')' :: (d.returnType.render ++ rest)) := by
    simp [MethodDescriptor.render]
  simp only [hrender, parse?, parameters?_flatMap_render h.parameters,
    JvmType.parse?_render h.returnType, Option.bind_eq_bind, Option.bind_some]
  rfl

theorem IsReadable.ofString_eq {d : MethodDescriptor} (h : d.IsReadable) :
    ofString (String.ofList d.render) = .ok d := by
  obtain ⟨hdelimited, hproper⟩ := isReadable_iff.1 h
  have hparse : parse? d.render = some d := by
    simpa using parse?_render hdelimited []
  simp [ofString, hparse, hproper]

/-! ## Slots -/

theorem slotSum_eq (d : MethodDescriptor) :
    d.slotSum = UInt16.ofNat (JvmType.totalSlots d.parameters) := by
  have hfold (types : List JvmType) (sum : UInt16) :
      types.foldl (fun sum type => sum + UInt16.ofNat type.kind.slots) sum =
        sum + UInt16.ofNat (JvmType.totalSlots types) := by
    induction types generalizing sum with
    | nil => simp [JvmType.totalSlots]
    | cons type types ih =>
      have hcons : JvmType.totalSlots (type :: types) =
          type.kind.slots + JvmType.totalSlots types := rfl
      rw [List.foldl_cons, ih, hcons, UInt16.ofNat_add, UInt16.add_assoc]
  rw [slotSum, hfold, UInt16.zero_add]

theorem parameterSlots_eq {d : MethodDescriptor}
    (h : JvmType.totalSlots d.parameters ≤ 65535) :
    d.parameterSlots = JvmType.totalSlots d.parameters := by
  rw [parameterSlots, slotSum_eq, UInt16.toNat_ofNat', Nat.mod_eq_of_lt (by omega)]

/-! ## Descriptors that are read back -/

theorem ofString_eq_error {text : String} (h : ∀ d, ofString text ≠ .ok d) :
    ofString text = .error (.malformedDescriptor text) := by
  unfold ofString at h ⊢
  split
  next d hparse =>
    split
    next hchecks => exact absurd (by simp [hparse, hchecks]) (h d)
    next => rfl
  next => rfl

/-- A well-formed descriptor is read back from its text. Its parameters take a slot each, and a
second one for a `long` or a `double`, as long as sixteen bits hold their number. -/
theorem ofString_render {d : MethodDescriptor} (h : d.IsWellFormed) :
    ofString (String.ofList d.render) = .ok d ∧
      (d.parameters.length + (d.parameters.count (.ofPrimitive .long) +
          d.parameters.count (.ofPrimitive .double)) ≤ 65535 →
        d.parameterSlots = d.parameters.length +
          (d.parameters.count (.ofPrimitive .long) +
            d.parameters.count (.ofPrimitive .double))) := by
  refine ⟨h.isReadable.ofString_eq, fun hfit => ?_⟩
  have htotal := JvmType.totalSlots_eq h.parameters
  rw [← htotal] at hfit ⊢
  exact parameterSlots_eq hfit

/-- A number, a `long`, a class and an array of arrays, for a class. -/
def sample : MethodDescriptor :=
  ⟨[.ofPrimitive .int, .ofPrimitive .long, ⟨0, .object "java/lang/String"⟩,
    ⟨2, .primitive .double⟩], ⟨0, .object "java/util/List"⟩⟩

theorem ofString_render_sample :
    sample.IsWellFormed ∧ ofString "(IJLjava/lang/String;[[D)Ljava/util/List;" = .ok sample ∧
      sample.parameterSlots = 5 := by
  have hwell : sample.IsWellFormed := by decide
  obtain ⟨hread, hslots⟩ := ofString_render hwell
  exact ⟨hwell, hread, hslots (by decide)⟩

end MethodDescriptor

end PlatformLink
