import Mathlib.Computability.Language
import PlatformLink.Proofs.DescriptorRoundTrip

/-! # The texts that are read as descriptors

The descriptors of methods as languages, written with union, concatenation and repetition. What an
array may hold is their parameter: with scalars alone this is the grammar of the machine that runs
the classes, and with `void` besides it is the language that is read. Reading a part of a text gives
a value just when the text starts with the one it renders to (`JvmType.parse?_eq_some_iff`), from
which `MethodDescriptor.ofString_grammar` follows.
-/

namespace PlatformLink
set_option autoImplicit false

open scoped Computability

/-! ## What a part that was read looked like -/

theorem Primitive.ofLetter?_eq_some_iff {c : Char} {type : Primitive} :
    Primitive.ofLetter? c = some type ↔ c = type.letter := by
  constructor
  · intro h
    unfold Primitive.ofLetter? at h
    split at h <;> cases h <;> rfl
  · intro h
    rw [h, Primitive.ofLetter?_letter]

theorem className?_eq_some {cs rest : List Char} {e : Element}
    (h : className? cs = some (e, rest)) : e.IsDelimited ∧ 'L' :: cs = e.render ++ rest := by
  unfold className? at h
  split at h
  · rename_i d rest' hdrop
    cases h
    have hsplit := List.takeWhile_append_dropWhile (p := (· != ';')) (l := cs)
    have hend : d = ';' := by
      have hhead := List.head_dropWhile_not (· != ';') (l := cs) (by simp [hdrop])
      simpa [hdrop] using hhead
    have hinside : ';' ∉ cs.takeWhile (· != ';') := by
      intro hmem
      exact absurd (List.all_eq_true.1 List.all_takeWhile _ hmem) (by decide)
    rw [hdrop, hend] at hsplit
    refine ⟨by rwa [Element.IsDelimited, String.toList_ofList], ?_⟩
    rw [Element.render, String.toList_ofList]
    simpa using hsplit.symm
  · cases h

theorem Element.parse?_eq_some_iff {cs rest : List Char} {e : Element} :
    Element.parse? cs = some (e, rest) ↔ e.IsDelimited ∧ cs = e.render ++ rest := by
  constructor
  · intro h
    cases cs with
    | nil => cases h
    | cons c cs =>
      simp only [Element.parse?] at h
      split at h
      next type hletter =>
        cases h
        exact ⟨trivial, by rw [Primitive.ofLetter?_eq_some_iff.1 hletter]; rfl⟩
      next =>
        split at h
        next hvoid =>
          cases h
          exact ⟨trivial, by rw [hvoid]; rfl⟩
        next =>
          split at h
          next hobject =>
            rw [hobject]
            exact className?_eq_some h
          next => cases h
  · intro h
    obtain ⟨hname, hcs⟩ := h
    rw [hcs, Element.parse?_render hname]

theorem JvmType.parse?_eq_some_iff {cs rest : List Char} {type : JvmType} :
    JvmType.parse? cs = some (type, rest) ↔ type.IsDelimited ∧ cs = type.render ++ rest := by
  constructor
  · intro h
    simp only [JvmType.parse?] at h
    split at h
    · rename_i hdimensions
      obtain ⟨⟨e, r⟩, he, heq⟩ := Option.map_eq_some_iff.1 h
      cases heq
      obtain ⟨hname, hdrop⟩ := Element.parse?_eq_some_iff.1 he
      have htake : cs.takeWhile (· == '[') =
          List.replicate (cs.takeWhile (· == '[')).length '[' := by
        rw [List.eq_replicate_iff]
        exact ⟨rfl, fun c hc => by simpa using List.all_eq_true.1 List.all_takeWhile c hc⟩
      refine ⟨⟨hdimensions, hname⟩, ?_⟩
      rw [JvmType.render, List.append_assoc, ← hdrop, ← htake, List.takeWhile_append_dropWhile]
    · cases h
  · intro h
    obtain ⟨hread, hcs⟩ := h
    rw [hcs, JvmType.parse?_render hread]

namespace MethodDescriptor

theorem eq_render_of_parameters? {cs rest : List Char} {types : List JvmType}
    (h : parameters? [] cs = some (types, rest)) :
    (∀ type ∈ types, type.IsDelimited) ∧ cs = types.flatMap JvmType.render ++ ')' :: rest := by
  by_cases hclose : ∃ rest', cs = ')' :: rest'
  · obtain ⟨rest', rfl⟩ := hclose
    rw [parameters?_close] at h
    cases h
    exact ⟨by simp, rfl⟩
  · rw [parameters?] at h
    · split at h
      next type rest' hparse =>
        rw [parameters?_eq, Option.map_eq_some_iff] at h
        obtain ⟨⟨types', r⟩, hrest, heq⟩ := h
        cases heq
        have hlength := JvmType.parse?_length hparse
        obtain ⟨hread, hcs⟩ := JvmType.parse?_eq_some_iff.1 hparse
        obtain ⟨htypes, hrest'⟩ := eq_render_of_parameters? hrest
        refine ⟨List.forall_mem_cons.2 ⟨hread, htypes⟩, ?_⟩
        rw [hcs, hrest']
        simp
      next => cases h
    · exact fun rest' hcs => hclose ⟨rest', hcs⟩
termination_by cs.length

/-- The text of a descriptor may be followed by anything. -/
theorem parse?_eq_some_iff {cs : List Char} {d : MethodDescriptor} :
    parse? cs = some d ↔ d.IsDelimited ∧ ∃ rest, cs = d.render ++ rest := by
  constructor
  · intro h
    unfold parse? at h
    split at h
    next cs =>
      simp only [Option.bind_eq_bind, Option.bind_eq_some_iff] at h
      obtain ⟨⟨parameters, back⟩, hparameters, ⟨returnType, rest⟩, hreturn, h⟩ := h
      cases h
      obtain ⟨htypes, hcs⟩ := eq_render_of_parameters? hparameters
      obtain ⟨hread, hback⟩ := JvmType.parse?_eq_some_iff.1 hreturn
      refine ⟨⟨htypes, hread⟩, rest, ?_⟩
      dsimp only at hback
      rw [hcs, hback]
      simp [MethodDescriptor.render]
    next => cases h
  · rintro ⟨hread, rest, rfl⟩
    exact parse?_render hread rest

theorem ofString_eq_ok_iff {text : String} {d : MethodDescriptor} :
    ofString text = .ok d ↔ d.IsReadable ∧ text.toList = d.render := by
  constructor
  · intro h
    unfold ofString at h
    split at h
    next found hparse =>
      split at h
      next hchecks =>
        cases h
        rw [Bool.and_eq_true, beq_iff_eq] at hchecks
        exact ⟨isReadable_iff.2 ⟨(parse?_eq_some_iff.1 hparse).1, hchecks.1⟩, hchecks.2.symm⟩
      next => cases h
    next => cases h
  · rintro ⟨hread, htext⟩
    rw [← hread.ofString_eq, ← htext, String.ofList_toList]

end MethodDescriptor

/-! ## Languages -/

namespace DescriptorText

def letters : List Char := ['B', 'C', 'D', 'F', 'I', 'J', 'S', 'Z']

def primitives : Language Char := {word | ∃ c ∈ letters, word = [c]}

def classes : Language Char :=
  {word | ∃ name : List Char, name ≠ [] ∧ ';' ∉ name ∧ word = 'L' :: (name ++ [';'])}

def void : Language Char := {['V']}

def scalars : Language Char := primitives + classes

def arrays (held : Language Char) : Language Char :=
  {word | ∃ n inner, 1 ≤ n ∧ n ≤ 255 ∧ inner ∈ held ∧ word = List.replicate n '[' ++ inner}

/-- The types of fields and parameters, if arrays can hold those of `held`. -/
def fields (held : Language Char) : Language Char := scalars + arrays held

/-- The descriptors of methods, if arrays can hold the types of `held`. -/
def methods (held : Language Char) : Language Char :=
  {['(']} * (fields held)∗ * {[')']} * (fields held + void)

variable {word : List Char}

theorem mem_primitives_iff : word ∈ primitives ↔ ∃ type : Primitive, word = [type.letter] := by
  have hletters : letters.all (fun c => (Primitive.ofLetter? c).isSome) = true := by decide
  rw [List.all_eq_true] at hletters
  constructor
  · intro h
    obtain ⟨c, hc, hword⟩ := h
    obtain ⟨type, htype⟩ := Option.isSome_iff_exists.1 (hletters c hc)
    exact ⟨type, by rw [hword, Primitive.ofLetter?_eq_some_iff.1 htype]⟩
  · intro h
    obtain ⟨type, hword⟩ := h
    refine ⟨type.letter, ?_, hword⟩
    cases type <;> decide

theorem mem_classes_iff : word ∈ classes ↔
    ∃ name, (Element.object name).HasClassName ∧ word = (Element.object name).render := by
  constructor
  · intro h
    obtain ⟨name, hne, hend, hword⟩ := h
    refine ⟨String.ofList name, ⟨?_, by rwa [String.toList_ofList]⟩, ?_⟩
    · intro hempty
      rw [← String.toList_eq_nil_iff, String.toList_ofList] at hempty
      exact hne hempty
    · rw [hword, Element.render, String.toList_ofList]
  · intro h
    obtain ⟨name, ⟨hne, hend⟩, hword⟩ := h
    exact ⟨name.toList, fun hnil => hne (String.toList_eq_nil_iff.1 hnil), hend, hword⟩

theorem mem_scalars_iff : word ∈ scalars ↔
    ∃ e : Element, e ≠ .void ∧ e.HasClassName ∧ word = e.render := by
  rw [scalars, Language.mem_add, mem_primitives_iff, mem_classes_iff]
  constructor
  · intro h
    obtain ⟨type, hword⟩ | ⟨name, hname, hword⟩ := h
    · exact ⟨.primitive type, by simp, trivial, hword⟩
    · exact ⟨.object name, by simp, hname, hword⟩
  · intro h
    obtain ⟨e, hvoid, hname, hword⟩ := h
    cases e with
    | primitive type => exact .inl ⟨type, hword⟩
    | void => exact absurd rfl hvoid
    | object name => exact .inr ⟨name, hname, hword⟩

theorem mem_scalars_void_iff : word ∈ scalars + void ↔
    ∃ e : Element, e.HasClassName ∧ word = e.render := by
  rw [Language.mem_add, mem_scalars_iff]
  constructor
  · intro h
    obtain ⟨e, -, hname, hword⟩ | hword := h
    · exact ⟨e, hname, hword⟩
    · exact ⟨.void, trivial, hword⟩
  · intro h
    obtain ⟨e, hname, hword⟩ := h
    by_cases hvoid : e = .void
    · rw [hvoid] at hword
      exact .inr hword
    · exact .inl ⟨e, hvoid, hname, hword⟩

/-! ## Rendered types -/

/-- The type of a field whose elements in an array satisfy `P`. -/
structure IsFieldOver (P : Element → Prop) (type : JvmType) : Prop extends type.IsReadable where
  scalar : type.dimensions = 0 → type.element ≠ .void
  array : type.dimensions ≠ 0 → P type.element

theorem isFieldOver_ne_void_iff {type : JvmType} :
    IsFieldOver (· ≠ .void) type ↔ type.IsField := by
  constructor
  · intro h
    refine ⟨h.dimensions, h.className, ?_⟩
    by_cases hscalar : type.dimensions = 0
    · exact h.scalar hscalar
    · exact h.array hscalar
  · intro h
    exact ⟨h.isReadable, fun _ => h.not_void, fun _ => h.not_void⟩

theorem isFieldOver_true_iff {type : JvmType} :
    IsFieldOver (fun _ => True) type ↔ type.IsReadable ∧ type.isVoid = false := by
  have hvoid : type.isVoid = false ↔ (type.dimensions = 0 → type.element ≠ .void) := by
    simp [JvmType.isVoid]
  rw [hvoid]
  exact ⟨fun h => ⟨h.toIsReadable, h.scalar⟩, fun h => ⟨h.1, h.2, fun _ => trivial⟩⟩

section Over

variable {held : Language Char} {P : Element → Prop}

theorem mem_fields_iff
    (hheld : ∀ word, word ∈ held ↔ ∃ e : Element, P e ∧ e.HasClassName ∧ word = e.render) :
    word ∈ fields held ↔ ∃ type, IsFieldOver P type ∧ word = type.render := by
  rw [fields, Language.mem_add, mem_scalars_iff]
  constructor
  · intro h
    obtain ⟨e, hvoid, hname, hword⟩ | ⟨n, inner, hpos, hle, hinner, hword⟩ := h
    · exact ⟨⟨0, e⟩, ⟨⟨Nat.zero_le _, hname⟩, fun _ => hvoid, fun hne => absurd rfl hne⟩, hword⟩
    · obtain ⟨e, hP, hname, hrender⟩ := (hheld inner).1 hinner
      rw [hrender] at hword
      refine ⟨⟨n, e⟩, ⟨⟨hle, hname⟩, fun hzero => ?_, fun _ => hP⟩, hword⟩
      exact absurd hzero (Nat.ne_of_gt hpos)
  · intro h
    obtain ⟨⟨n, e⟩, h, hword⟩ := h
    by_cases hn : n = 0
    · subst hn
      exact .inl ⟨e, h.scalar rfl, h.className, hword⟩
    · have hinner : e.render ∈ held := (hheld _).2 ⟨e, h.array hn, h.className, rfl⟩
      exact .inr ⟨n, e.render, Nat.one_le_iff_ne_zero.2 hn, h.dimensions, hinner, hword⟩

theorem mem_kstar_fields_iff
    (hheld : ∀ word, word ∈ held ↔ ∃ e : Element, P e ∧ e.HasClassName ∧ word = e.render) :
    word ∈ (fields held)∗ ↔
      ∃ types : List JvmType, (∀ type ∈ types, IsFieldOver P type) ∧
        word = types.flatMap JvmType.render := by
  rw [Language.mem_kstar]
  constructor
  · intro h
    obtain ⟨words, hword, hwords⟩ := h
    subst hword
    induction words with
    | nil => exact ⟨[], by simp, rfl⟩
    | cons first words ih =>
      rw [List.forall_mem_cons] at hwords
      obtain ⟨type, htype, hfirst⟩ := (mem_fields_iff hheld).1 hwords.1
      obtain ⟨types, htypes, hrest⟩ := ih hwords.2
      refine ⟨type :: types, List.forall_mem_cons.2 ⟨htype, htypes⟩, ?_⟩
      rw [List.flatten_cons, List.flatMap_cons, hfirst, hrest]
  · intro h
    obtain ⟨types, htypes, hword⟩ := h
    refine ⟨types.map JvmType.render, by rw [hword, List.flatMap_def], ?_⟩
    intro part hpart
    obtain ⟨type, htype, rfl⟩ := List.mem_map.1 hpart
    exact (mem_fields_iff hheld).2 ⟨type, htypes type htype, rfl⟩

theorem mem_methods_iff
    (hheld : ∀ word, word ∈ held ↔ ∃ e : Element, P e ∧ e.HasClassName ∧ word = e.render) :
    word ∈ methods held ↔
      ∃ d : MethodDescriptor, (∀ type ∈ d.parameters, IsFieldOver P type) ∧
        (IsFieldOver P d.returnType ∨ d.returnType = .void) ∧ word = d.render := by
  have hreturn (back : List Char) : back ∈ fields held + void ↔
      ∃ type, (IsFieldOver P type ∨ type = .void) ∧ back = type.render := by
    rw [Language.mem_add, mem_fields_iff hheld]
    constructor
    · intro h
      obtain ⟨type, htype, hback⟩ | hback := h
      · exact ⟨type, .inl htype, hback⟩
      · exact ⟨.void, .inr rfl, hback⟩
    · intro h
      obtain ⟨type, htype, hback⟩ := h
      obtain hfield | rfl := htype
      · exact .inl ⟨type, hfield, hback⟩
      · exact .inr hback
  simp only [methods, Language.mem_mul, mem_kstar_fields_iff hheld, hreturn]
  constructor
  · intro h
    obtain ⟨front, ⟨opened, ⟨_, rfl, inner, ⟨types, htypes, rfl⟩, rfl⟩, _, rfl, rfl⟩, back,
      ⟨type, htype, rfl⟩, rfl⟩ := h
    exact ⟨⟨types, type⟩, htypes, htype, by simp [MethodDescriptor.render]⟩
  · intro h
    obtain ⟨⟨types, type⟩, htypes, htype, hword⟩ := h
    refine ⟨'(' :: types.flatMap JvmType.render ++ [')'],
      ⟨'(' :: types.flatMap JvmType.render, ⟨['('], rfl, _, ⟨types, htypes, rfl⟩, rfl⟩, [')'], rfl,
        rfl⟩, type.render, ⟨type, htype, rfl⟩, ?_⟩
    simp [hword, MethodDescriptor.render]

end Over

theorem mem_methods_scalars_iff : word ∈ methods scalars ↔
    ∃ d : MethodDescriptor, d.IsWellFormed ∧ word = d.render := by
  rw [mem_methods_iff fun _ => mem_scalars_iff]
  simp only [isFieldOver_ne_void_iff]
  exact exists_congr fun d =>
    ⟨fun h => ⟨⟨h.1, h.2.1⟩, h.2.2⟩, fun h => ⟨h.1.parameters, h.1.returnType, h.2⟩⟩

theorem mem_methods_void_iff : word ∈ methods (scalars + void) ↔
    ∃ d : MethodDescriptor, d.IsReadable ∧ word = d.render := by
  have hreturn (type : JvmType) :
      (type.IsReadable ∧ type.isVoid = false ∨ type = .void) ↔ type.IsReadable := by
    constructor
    · intro h
      obtain ⟨hread, -⟩ | rfl := h
      · exact hread
      · exact ⟨Nat.zero_le _, trivial⟩
    · intro hread
      by_cases hvoid : type.isVoid = true
      · obtain ⟨dimensions, element⟩ := type
        obtain ⟨rfl, rfl⟩ : dimensions = 0 ∧ element = .void := by
          simpa [JvmType.isVoid] using hvoid
        exact .inr rfl
      · exact .inl ⟨hread, by simpa using hvoid⟩
  rw [mem_methods_iff (P := fun _ => True) fun word => by
    simp only [mem_scalars_void_iff, true_and]]
  simp only [isFieldOver_true_iff, hreturn]
  exact exists_congr fun d =>
    ⟨fun h => ⟨⟨h.1, h.2.1⟩, h.2.2⟩, fun h => ⟨h.1.parameters, h.1.returnType, h.2⟩⟩

end DescriptorText

namespace MethodDescriptor

open DescriptorText

theorem isWellFormed_iff {d : MethodDescriptor} : d.IsWellFormed ↔ d.IsReadable ∧
    ∀ type ∈ d.returnType :: d.parameters, type.element = .void → type.dimensions = 0 := by
  rw [List.forall_mem_cons]
  constructor
  · intro h
    refine ⟨h.isReadable, ?_,
      fun type htype hvoid => absurd hvoid (h.parameters type htype).not_void⟩
    obtain hfield | hreturn := h.returnType
    · exact fun hvoid => absurd hvoid hfield.not_void
    · intro _
      rw [hreturn]
      rfl
  · intro h
    obtain ⟨hread, hreturn, hparameters⟩ := h
    refine ⟨fun type htype => ?_, ?_⟩
    · obtain ⟨htypeRead, hnot⟩ := hread.parameters type htype
      refine ⟨htypeRead.dimensions, htypeRead.className, fun hvoid => ?_⟩
      simp [JvmType.isVoid, hvoid, hparameters type htype hvoid] at hnot
    · by_cases hvoid : d.returnType.element = .void
      · right
        have hscalar := hreturn hvoid
        obtain ⟨_, dimensions, element⟩ := d
        dsimp only at hvoid hscalar
        rw [hvoid, hscalar]
        rfl
      · exact .inl ⟨hread.returnType.dimensions, hread.returnType.className, hvoid⟩

/-- A text is read just when it is a descriptor in which an array may hold `void`, and refused under
its own name otherwise. It is one of the machine's grammar just when no array does. -/
theorem ofString_grammar (text : String) :
    ((∃ d, ofString text = .ok d) ↔ text.toList ∈ methods (scalars + void)) ∧
      (text.toList ∉ methods (scalars + void) →
        ofString text = .error (.malformedDescriptor text)) ∧
      (text.toList ∈ methods scalars ↔ ∃ d, ofString text = .ok d ∧
        ∀ type ∈ d.returnType :: d.parameters, type.element = .void → type.dimensions = 0) := by
  have haccepted : (∃ d, ofString text = .ok d) ↔ text.toList ∈ methods (scalars + void) := by
    simp only [mem_methods_void_iff, ofString_eq_ok_iff]
  refine ⟨haccepted, fun hnot => ?_, ?_⟩
  · rw [← haccepted] at hnot
    exact ofString_eq_error fun d hd => hnot ⟨d, hd⟩
  · simp only [mem_methods_scalars_iff, ofString_eq_ok_iff]
    refine exists_congr fun d => ?_
    rw [isWellFormed_iff, and_right_comm]

/-- A parameter that is an array of `void` is read, though it is none of the machine's grammar. -/
theorem ofString_voidArray :
    ofString "([V)V" = .ok ⟨[⟨1, .void⟩], .void⟩ ∧ "([V)V".toList ∉ methods scalars := by
  have hread : ofString "([V)V" = .ok ⟨[⟨1, .void⟩], .void⟩ := by
    refine ofString_eq_ok_iff.2 ⟨⟨?_, by decide, trivial⟩, rfl⟩
    rw [List.forall_mem_singleton]
    exact ⟨⟨by decide, trivial⟩, rfl⟩
  refine ⟨hread, fun hmem => ?_⟩
  obtain ⟨d, hwell, hrender⟩ := mem_methods_scalars_iff.1 hmem
  have hd := ofString_eq_ok_iff.2 ⟨hwell.isReadable, hrender⟩
  rw [hread, Except.ok.injEq] at hd
  subst hd
  exact (hwell.parameters _ List.mem_cons_self).not_void rfl

end MethodDescriptor

end PlatformLink
