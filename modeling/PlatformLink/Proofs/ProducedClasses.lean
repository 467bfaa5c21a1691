import Mathlib.Data.List.Nodup
import PlatformLink.Proofs.ForwardingRoundTrip

/-! # Classes that come about

A class is built from nothing, read, or made from another one by an edit or a further method
(`ClassFile.Produced`). None of this leaves the shape that the writer relies on, `ClassFile.Regular`:
the pool can be written down, annotation elements follow their grammar, and a method has what
stands at its places and could have been read with them in that order.
-/

namespace PlatformLink
set_option autoImplicit false

/-! ## Regular methods -/

namespace Method

/-- The elements of the annotations follow their grammar, and the places are those of attributes
that could have been read one after another. -/
structure Regular (pool : ConstantPool) (m : Method) : Prop where
  visible : ∀ es, m.visible = some es → ∀ e ∈ es, Annotations.IsElements e.elements
  invisible : ∀ es, m.invisible = some es → ∀ e ∈ es, Annotations.IsElements e.elements
  named : ∀ kept, .other kept ∈ m.order → ∃ name, pool.text kept.name = .ok name
  has : ∀ place ∈ m.order, m.has place = true
  ordered : Ordered pool m.order.reverse

theorem Attributed.regular {pool : ConstantPool} {m : Method} {attributes : List Attribute}
    (h : m.Attributed pool attributes) (hf : Attribute.AllFit attributes) : m.Regular pool := by
  have hm := h.rereadable hf
  refine ⟨fun es hes => (hm.visible es hes).elements, fun es hes => (hm.invisible es hes).elements,
    fun kept hkept => (hm.others kept hkept).2, ?_, h.ordered⟩
  intro place hplace
  obtain ⟨item, -, hdecodes⟩ := exists_mem_of_forall₂ h.decodes hplace
  exact hdecodes.has

theorem regular_bare (pool : ConstantPool) (access : UInt16) (name descriptor : String) :
    (bare access name descriptor).Regular pool := by
  constructor <;> simp [bare, Ordered]

theorem Regular.of_le {pool : ConstantPool} {m m' : Method} (h : m.Regular pool)
    (horder : m'.order = m.order) (hhas : ∀ place, m.has place = true → m'.has place = true)
    (hvisible : ∀ es, m'.visible = some es → ∀ e ∈ es, Annotations.IsElements e.elements)
    (hinvisible : ∀ es, m'.invisible = some es → ∀ e ∈ es, Annotations.IsElements e.elements) :
    m'.Regular pool := by
  refine ⟨hvisible, hinvisible, ?_, ?_, ?_⟩ <;> rw [horder]
  · exact h.named
  · exact fun place hplace => hhas place (h.has place hplace)
  · exact h.ordered

theorem Regular.mapBody {pool : ConstantPool} {m : Method} (h : m.Regular pool) (f : Body → Body) :
    (m.mapBody f).Regular pool := by
  refine h.of_le rfl (fun place hplace => ?_) h.visible h.invisible
  cases place with
  | body => rfl
  | _ => exact hplace

theorem isElements_concat_marker {entries : Option (List AnnotationEntry)} (descriptor : String)
    (h : ∀ es, entries = some es → ∀ e ∈ es, Annotations.IsElements e.elements) :
    ∀ e ∈ entries.getD [] ++ [.marker descriptor], Annotations.IsElements e.elements := by
  rw [List.forall_mem_append, List.forall_mem_singleton]
  refine ⟨?_, 0, 0, [], [], rfl, rfl, .nil⟩
  cases entries with
  | none => simp
  | some es => exact h es rfl

theorem Regular.annotate {pool : ConstantPool} {m : Method} (h : m.Regular pool)
    (descriptor : String) (visible : Bool) : (m.annotate descriptor visible).Regular pool := by
  cases visible with
  | true =>
    refine h.of_le rfl (fun place hplace => ?_) ?_ h.invisible
    · cases place with
      | visible => rfl
      | _ => exact hplace
    · rintro es ⟨rfl⟩
      exact isElements_concat_marker descriptor h.visible
  | false =>
    refine h.of_le rfl (fun place hplace => ?_) h.visible ?_
    · cases place with
      | invisible => rfl
      | _ => exact hplace
    · rintro es ⟨rfl⟩
      exact isElements_concat_marker descriptor h.invisible

theorem Regular.forward {pool : ConstantPool} {m : Method} (h : m.Regular pool) (target : String)
    (d : MethodDescriptor) : (Forwarding.forward target m d).Regular pool :=
  (h.mapBody fun _ => ⟨none, Forwarding.instructions target m d, [], []⟩).annotate Marker.done false

/-! ## Places that are written -/

theorem Ordered.append_parts {pool : ConstantPool} {places parts : List Place}
    (h : Ordered pool places) (hnodup : parts.Nodup)
    (hparts : ∀ part ∈ parts, part ∉ places ∧ ∃ name, part.attributeName? = some name) :
    Ordered pool (parts ++ places) := by
  induction parts with
  | nil => exact h
  | cons part parts ih =>
    obtain ⟨hmem, hnodup⟩ := List.nodup_cons.1 hnodup
    obtain ⟨⟨hplaces, name, hname⟩, hparts⟩ := List.forall_mem_cons.1 hparts
    have hnot : part ∉ parts ++ places := by
      rw [List.mem_append]
      exact not_or.2 ⟨hmem, hplaces⟩
    refine ⟨?_, ih hnodup hparts⟩
    cases part with
    | other kept => cases hname
    | _ => exact hnot

/-- What came into being after a method was read is written after the rest. -/
theorem Regular.ordered_written {pool : ConstantPool} {m : Method} (h : m.Regular pool) :
    Ordered pool m.written.reverse := by
  have hkept : m.order.filter m.has = m.order := List.filter_eq_self.2 h.has
  rw [written, places, List.filter_append, hkept, List.reverse_append]
  -- what is written after the places of the method are parts that are not among them
  refine h.ordered.append_parts ?_ ?_
  · rw [List.nodup_reverse]
    exact (List.Nodup.filter _ (by decide)).filter _
  · intro part hpart
    obtain ⟨hpart, -⟩ := List.mem_filter.1 (List.mem_reverse.1 hpart)
    obtain ⟨hpart, hnot⟩ := List.mem_filter.1 hpart
    refine ⟨by simpa using hnot, ?_⟩
    simp only [List.mem_cons, List.not_mem_nil, or_false] at hpart
    obtain rfl | rfl | rfl := hpart
    · exact ⟨bodyName, rfl⟩
    · exact ⟨visibleName, rfl⟩
    · exact ⟨invisibleName, rfl⟩

/-! ## Building -/

/-- Methods that are built up from nothing. -/
inductive Built : Method → Prop
  | bare (access : UInt16) (name descriptor : String) : Built (.bare access name descriptor)
  | append {m : Method} (h : Built m) (more : List Instruction) : Built (m.append more)
  | annotate {m : Method} (h : Built m) (descriptor : String) (visible : Bool) :
    Built (m.annotate descriptor visible)
  | withFrame {m : Method} (h : Built m) (frame : FrameSize) : Built (m.withFrame frame)

theorem Built.regular {m : Method} (h : m.Built) (pool : ConstantPool) : m.Regular pool := by
  induction h with
  | bare access name descriptor => exact regular_bare pool access name descriptor
  | append _ more ih => exact ih.mapBody _
  | annotate _ descriptor visible ih => exact ih.annotate descriptor visible
  | withFrame _ frame ih => exact ih.mapBody _

end Method

/-! ## Classes -/

namespace ClassFile

structure Regular (c : ClassFile) : Prop where
  pool : ConstantPool.Slotted c.pool.entries.toList
  methods : ∀ m ∈ c.methods, m.Regular c.pool

/-- Classes that are built from nothing or read, with methods built for them and edits made, in
any number and whether or not they succeed. -/
inductive Produced : ClassFile → Prop
  | bare (major access : UInt16) (name : String) (superName : Option String) :
    Produced (.bare major access name superName)
  | read {octets : Bytes} {c : ClassFile} (h : read octets = .ok c) : Produced c
  | addMethod {c : ClassFile} {m : Method} (h : Produced c) (hm : m.Built) :
    Produced (c.addMethod m)
  | edit {c : ClassFile} (h : Produced c) (p : Preferences) (s : Settings) (label : String) :
    Produced (Forwarding.edit p s label c).classFile

theorem regular_of_read {octets : Bytes} {c : ClassFile} (h : read octets = .ok c) : c.Regular := by
  obtain ⟨l, hl, hd⟩ := read_eq_ok_iff.1 h
  obtain ⟨-, hf⟩ := ClassLayout.parse_eq_ok_iff.1 hl
  refine ⟨hd.pool ▸ hf.pool, ?_⟩
  rw [hd.pool]
  exact forall_mem_of_forall₂ hd.methods (fun _ _ hm hf => hm.attributes.regular hf) hf.methods.2

end ClassFile

namespace Forwarding

theorem method_step (p : Preferences) (s : Settings) (label owner : String) (m : Method) :
    (step p s label owner m).method = m ∨
      ∃ target d, (step p s label owner m).method = forward target m d := by
  by_cases hp : m.IsPending
  · obtain ⟨log, hstep⟩ := @step_of_isPending p s label owner m hp
    rw [hstep]
    split
    · cases hr : forward? p s owner m with
      | error e => exact .inl rfl
      | ok m' =>
        obtain ⟨d, segment, -, -, hm'⟩ := forward?_eq_ok hr
        exact .inr ⟨_, d, hm'⟩
    · exact .inl rfl
  · obtain ⟨log, hstep⟩ := @step_of_not_isPending p s label owner m hp
    rw [hstep]
    exact .inl rfl

/-- Every method of an edited class is one of the class, as it was or after its step. -/
theorem mem_methods_edit {p : Preferences} {s : Settings} {label : String} {c : ClassFile}
    {m' : Method} (h : m' ∈ (edit p s label c).classFile.methods) :
    ∃ m ∈ c.methods, m' = m ∨ m' = (step p s label c.name m).method := by
  unfold edit at h
  split at h
  · rcases List.mem_append.1 h with h | h
    · obtain ⟨step', hstep', rfl⟩ := List.mem_map.1 h
      obtain ⟨m, hm, rfl⟩ := List.mem_map.1 ((List.takeWhile_sublist _).mem hstep')
      exact ⟨m, hm, .inr rfl⟩
    · exact ⟨m', List.mem_of_mem_drop h, .inl rfl⟩
  · exact ⟨m', h, .inl rfl⟩

theorem pool_edit (p : Preferences) (s : Settings) (label : String) (c : ClassFile) :
    (edit p s label c).classFile.pool = c.pool := by
  unfold edit
  split <;> rfl

theorem regular_edit {c : ClassFile} (h : c.Regular) (p : Preferences) (s : Settings)
    (label : String) : (edit p s label c).classFile.Regular := by
  refine ⟨?_, fun m' hm' => ?_⟩
  · rw [pool_edit]
    exact h.pool
  · rw [pool_edit]
    obtain ⟨m, hm, rfl | rfl⟩ := mem_methods_edit hm'
    · exact h.methods _ hm
    · obtain hsame | ⟨target, d, hforward⟩ := method_step p s label c.name m
      · rw [hsame]
        exact h.methods m hm
      · rw [hforward]
        exact (h.methods m hm).forward target d

end Forwarding

theorem ClassFile.Produced.regular {c : ClassFile} (h : c.Produced) : c.Regular := by
  induction h with
  | bare major access name superName => exact ⟨.nil, by simp [ClassFile.bare]⟩
  | read h => exact regular_of_read h
  | @addMethod c m _ hm ih =>
    refine ⟨ih.pool, ?_⟩
    rw [ClassFile.addMethod, List.forall_mem_append, List.forall_mem_singleton]
    exact ⟨ih.methods, hm.regular c.pool⟩
  | edit _ p s label ih => exact Forwarding.regular_edit ih p s label

end PlatformLink
