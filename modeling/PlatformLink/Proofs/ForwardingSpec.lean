import Mathlib.Data.List.TakeWhile
import PlatformLink.Forwarding
import PlatformLink.Proofs.DescriptorRoundTrip
import PlatformLink.Proofs.Grammar

/-! # What forwarding does to a class

`Forwarding.edit_spec`: with the gate open, an edit that succeeds acts on the methods that are
`Method.IsPending` and on no others. The static ones come to `Forwarding.Forwarded`, the others
are reported in order, and nothing else of the class changes.
-/

namespace PlatformLink
set_option autoImplicit false

/-! ## Methods that are acted on -/

namespace Method

/-- Among some annotations, when there are any, is one of the given type. -/
def Carries (entries : Option (List AnnotationEntry)) (descriptor : String) : Prop :=
  ∃ es, entries = some es ∧ ∃ e ∈ es, e.descriptor = descriptor

/-- The method asks to be forwarded and has not been. -/
structure IsPending (m : Method) : Prop where
  marked : Carries m.visible Marker.legacy.descriptor ∨ Carries m.invisible Marker.current.descriptor ∨
    Carries m.invisible Marker.legacyPlatformOnly.descriptor
  unfinished : ¬ Carries m.invisible Marker.done

theorem mentions_iff {entries : Option (List AnnotationEntry)} {descriptor : String} :
    mentions entries descriptor = true ↔ Carries entries descriptor := by
  cases entries <;> simp [mentions, Carries]

theorem marker?_isSome_iff {m : Method} :
    m.marker?.isSome = true ↔ Carries m.visible Marker.legacy.descriptor ∨
      Carries m.invisible Marker.current.descriptor ∨
        Carries m.invisible Marker.legacyPlatformOnly.descriptor := by
  simp [marker?, hasMarker, mentions_iff]

theorem isPending_iff {m : Method} :
    m.IsPending ↔ m.marker?.isSome = true ∧ m.isForwarded = false := by
  rw [marker?_isSome_iff, isForwarded, ← Bool.not_eq_true, mentions_iff]
  exact ⟨fun h => ⟨h.marked, h.unfinished⟩, fun h => ⟨h.1, h.2⟩⟩

instance (m : Method) : Decidable m.IsPending := decidable_of_iff _ isPending_iff.symm

end Method

namespace Forwarding

open JvmType (totalSlots)

/-! ## One method -/

/-- The supplied package, else that of the properties, else the name of the platform, where
`quilt` stands for `fabric`. -/
def segment? (p : Preferences) (s : Settings) : Option String :=
  p.platformPackage.or <| (s.properties.get? Key.platformPackage).or <|
    (s.properties.get? Key.platformName).map fun name => if name = "quilt" then "fabric" else name

theorem platformSegment_eq_ok_iff {p : Preferences} {s : Settings} {segment : String} :
    platformSegment p.platformPackage s = .ok segment ↔ segment? p s = some segment := by
  unfold platformSegment segment?
  cases p.platformPackage with
  | some supplied => simp
  | none =>
    cases s.properties.get? Key.platformPackage with
    | some property => simp
    | none =>
      cases h : s.properties.get? Key.platformName with
      | none => simp [Settings.platformName, h, bind, Except.bind]
      | some name => simp [Settings.platformName, h, bind, Except.bind, pure, Except.pure]

theorem loads_getElem? (slot : Nat) (types : List JvmType) (i : Nat) :
    (loads slot types)[i]? = types[i]?.map fun type =>
      .variable type.kind.loadOpcode (UInt16.ofNat (slot + totalSlots (types.take i))) := by
  induction types generalizing slot i with
  | nil => simp
  | cons type types ih =>
    rw [loads_cons]
    cases i with
    | zero => simp [totalSlots]
    | succ i =>
      simp only [List.getElem?_cons_succ, ih, List.take_succ_cons, totalSlots, List.foldr_cons,
        Nat.add_assoc]

theorem length_loads (slot : Nat) (types : List JvmType) :
    (loads slot types).length = types.length := by
  induction types generalizing slot with
  | nil => rfl
  | cons type types ih => rw [loads_cons, List.length_cons, List.length_cons, ih]

theorem totalSlots_take_le (types : List JvmType) (i : Nat) :
    totalSlots (types.take i) ≤ totalSlots types := by
  induction types generalizing i with
  | nil => simp
  | cons type types ih =>
    cases i with
    | zero => simp [totalSlots]
    | succ i =>
      have hi := ih i
      simp only [List.take_succ_cons, totalSlots, List.foldr_cons] at hi ⊢
      omega

/-- `code` loads values of the types one after another from the first slot on. -/
structure LoadsAll (types : List JvmType) (code : List Instruction) : Prop where
  length : code.length = types.length
  load : ∀ (i : Nat) (type : JvmType), types[i]? = some type → ∃ slot : UInt16,
    code[i]? = some (.variable type.kind.loadOpcode slot) ∧ slot.toNat = totalSlots (types.take i)

theorem loadsAll_loads {types : List JvmType} (h : totalSlots types ≤ 65535) :
    LoadsAll types (loads 0 types) := by
  refine ⟨length_loads 0 types, fun i type hi => ⟨_, ?_, toNat_ofNat16 ?_⟩⟩
  · rw [loads_getElem?, hi, Option.map_some, Nat.zero_add]
  · exact Nat.le_trans (totalSlots_take_le types i) h

/-- The parameters of the method take no more slots than there are local variables. -/
def SlotsFit (m : Method) : Prop :=
  ∀ d, MethodDescriptor.ofString m.descriptor = .ok d → totalSlots d.parameters ≤ 65535

instance (m : Method) : Decidable (SlotsFit m) :=
  match h : MethodDescriptor.ofString m.descriptor with
  | .ok d => decidable_of_iff (totalSlots d.parameters ≤ 65535) (by simp [SlotsFit, h])
  | .error _ => isTrue (by simp [SlotsFit, h])

/-- The method `m` of the class `owner`, passed on to the class for the platform. -/
def Forwarded (p : Preferences) (s : Settings) (owner : String) (m m' : Method) : Prop :=
  ∃ d segment code, MethodDescriptor.ofString m.descriptor = .ok d ∧
    segment? p s = some segment ∧ LoadsAll d.parameters code ∧
    m' = { m with
      body := some {
        frame := none
        instructions := code ++ [
          .invoke 0xb8 (implementationName owner segment) m.name m.descriptor false,
          .plain d.returnType.kind.returnOpcode]
        handlers := []
        attributes := [] }
      invisible := some (m.invisible.getD [] ++ [.marker Marker.done]) }

theorem forward?_eq_ok {p : Preferences} {s : Settings} {owner : String} {m m' : Method}
    (h : forward? p s owner m = .ok m') :
    ∃ d segment, MethodDescriptor.ofString m.descriptor = .ok d ∧ segment? p s = some segment ∧
      m' = forward (implementationName owner segment) m d := by
  unfold forward? at h
  obtain ⟨d, hd, h⟩ := bind_eq_ok_iff.1 h
  obtain ⟨segment, hs, h⟩ := bind_eq_ok_iff.1 h
  cases h
  exact ⟨d, segment, hd, platformSegment_eq_ok_iff.1 hs, rfl⟩

theorem forwarded_of_forward? {p : Preferences} {s : Settings} {owner : String} {m m' : Method}
    (h : forward? p s owner m = .ok m') (hslots : SlotsFit m) : Forwarded p s owner m m' := by
  obtain ⟨d, segment, hd, hs, rfl⟩ := forward?_eq_ok h
  exact ⟨d, segment, loads 0 d.parameters, hd, hs, loadsAll_loads (hslots d hd), rfl⟩

/-! ## One step -/

/-- The report of a method that is pending and not static. -/
def report (owner : String) (m : Method) : Diagnostic where
  rule := "EXPECT_PLATFORM"
  className := owner
  methodName := m.name
  descriptor := m.descriptor
  message := "@ExpectPlatform can only apply to static methods: " ++ owner ++ "." ++ m.name ++
    m.descriptor

theorem notStatic_eq (owner : String) (m : Method) : notStatic owner m = report owner m := rfl

/-- A step that succeeded: what became of the method, and what was found out. -/
structure Stepped (p : Preferences) (s : Settings) (owner : String) (m : Method) (step : Step) :
    Prop where
  method : if m.IsPending ∧ m.isStatic = true then forward? p s owner m = .ok step.method
    else step.method = m
  changed : step.changed = decide (m.IsPending ∧ m.isStatic = true)
  diagnostic : step.diagnostic =
    if m.IsPending ∧ m.isStatic = false then some (report owner m) else none

section Step

variable {p : Preferences} {s : Settings} {label owner : String} {m : Method}

theorem step_of_not_isPending (h : ¬ m.IsPending) :
    ∃ log, step p s label owner m = .skip m log := by
  unfold step
  cases hmarker : m.marker? with
  | none => exact ⟨[], rfl⟩
  | some marker =>
    have hf : m.isForwarded = true := by simpa [Method.isPending_iff, hmarker] using h
    simp only [if_pos hf]
    exact ⟨_, rfl⟩

theorem step_of_isPending (h : m.IsPending) : ∃ log, step p s label owner m =
    if m.isStatic then
      match forward? p s owner m with
      | .ok m' => ⟨m', true, log, none, none⟩
      | .error e => ⟨m, false, log, none, some e⟩
    else ⟨m, false, log, some (report owner m), none⟩ := by
  obtain ⟨hmarked, hf⟩ := Method.isPending_iff.1 h
  obtain ⟨marker, hmarker⟩ := Option.isSome_iff_exists.1 hmarked
  unfold step
  simp only [hmarker, hf, notStatic_eq]
  by_cases hstatic : m.isStatic = true
  · simp only [if_pos hstatic]
    exact ⟨_, rfl⟩
  · simp only [if_neg hstatic]
    exact ⟨_, rfl⟩

end Step

theorem stepped_of_failure {p : Preferences} {s : Settings} {label owner : String} {m : Method}
    (h : (step p s label owner m).failure = none) :
    Stepped p s owner m (step p s label owner m) := by
  by_cases hp : m.IsPending
  · obtain ⟨log, hstep⟩ := @step_of_isPending p s label owner m hp
    rw [hstep] at h ⊢
    by_cases hstatic : m.isStatic = true
    · cases hr : forward? p s owner m with
      | error e => simp [hstatic, hr] at h
      | ok m' => refine ⟨?_, ?_, ?_⟩ <;> simp [hp, hstatic, hr]
    · refine ⟨?_, ?_, ?_⟩ <;> simp [hp, hstatic]
  · obtain ⟨log, hstep⟩ := @step_of_not_isPending p s label owner m hp
    rw [hstep]
    refine ⟨?_, ?_, ?_⟩ <;> simp [hp, Step.skip]

/-! ## A class -/

theorem succeeded_eq {steps : List Step} (h : ∀ step ∈ steps, step.failure = none) :
    succeeded steps = steps := by
  rw [succeeded, List.takeWhile_eq_self_iff]
  intro step hstep
  rw [h step hstep]
  rfl

theorem failure_ofSteps_eq_none_iff {c : ClassFile} {steps : List Step} :
    (Edit.ofSteps c steps).failure = none ↔ ∀ step ∈ steps, step.failure = none := by
  constructor
  · intro h
    induction steps with
    | nil => simp
    | cons step steps ih =>
      cases hf : step.failure with
      | some e => simp [Edit.ofSteps, succeeded, hf] at h
      | none =>
        have hrest : (Edit.ofSteps c steps).failure = none := by
          simpa [Edit.ofSteps, succeeded, hf] using h
        rw [List.forall_mem_cons]
        exact ⟨hf, ih hrest⟩
  · intro h
    simp [Edit.ofSteps, succeeded_eq h]

theorem edit_eq {p : Preferences} {s : Settings} {label : String} {c : ClassFile}
    (hopen : s.isEnabled = true) (h : (edit p s label c).failure = none) :
    ∃ steps, List.Forall₂ (Stepped p s c.name) c.methods steps ∧
      (edit p s label c).classFile = { c with methods := steps.map (·.method) } ∧
      (edit p s label c).changed = steps.any (·.changed) ∧
      (edit p s label c).diagnostics = steps.filterMap (·.diagnostic) := by
  rw [edit, if_pos hopen] at h ⊢
  have hall := failure_ofSteps_eq_none_iff.1 h
  have hs := succeeded_eq hall
  refine ⟨c.methods.map (step p s label c.name), ?_, ?_, ?_, ?_⟩
  · rw [List.forall₂_map_right_iff, List.forall₂_same]
    exact fun m hm => stepped_of_failure (hall _ (List.mem_map_of_mem hm))
  · simp only [Edit.ofSteps, hs, List.length_map, List.drop_length, List.append_nil]
  · simp only [Edit.ofSteps, hs]
  · simp only [Edit.ofSteps, hs]

def ActsOn (s : Settings) (m : Method) : Prop :=
  s.isEnabled = true ∧ m.IsPending ∧ m.isStatic = true

instance (s : Settings) (m : Method) : Decidable (ActsOn s m) :=
  inferInstanceAs (Decidable (_ ∧ _ ∧ _))

/-- `m'` is what an edit, with the gate open or closed, makes of the method `m`. -/
def Edited (p : Preferences) (s : Settings) (owner : String) (m m' : Method) : Prop :=
  if ActsOn s m then forward? p s owner m = .ok m' else m' = m

theorem edit_methods {p : Preferences} {s : Settings} {label : String} {c : ClassFile}
    (h : (edit p s label c).failure = none) :
    ∃ methods, (edit p s label c).classFile = { c with methods := methods } ∧
      List.Forall₂ (Edited p s c.name) c.methods methods := by
  by_cases hopen : s.isEnabled = true
  · obtain ⟨steps, hsteps, hclass, -, -⟩ := edit_eq hopen h
    refine ⟨_, hclass, ?_⟩
    rw [List.forall₂_map_right_iff]
    refine hsteps.imp fun m step hm => ?_
    simpa only [Edited, ActsOn, hopen, true_and] using hm.method
  · rw [edit, if_neg hopen]
    refine ⟨c.methods, rfl, ?_⟩
    rw [List.forall₂_same]
    intro m _
    rw [Edited, if_neg fun hall => hopen hall.1]

theorem any_changed {p : Preferences} {s : Settings} {owner : String} {methods : List Method}
    {steps : List Step} (h : List.Forall₂ (Stepped p s owner) methods steps) :
    steps.any (·.changed) = true ↔ ∃ m ∈ methods, m.IsPending ∧ m.isStatic = true := by
  induction h with
  | nil => simp
  | cons hm _ ih => simp [ih, hm.changed]

theorem filterMap_diagnostic {p : Preferences} {s : Settings} {owner : String}
    {methods : List Method} {steps : List Step}
    (h : List.Forall₂ (Stepped p s owner) methods steps) :
    steps.filterMap (·.diagnostic) =
      (methods.filter fun m => m.IsPending ∧ m.isStatic = false).map (report owner) := by
  induction h with
  | nil => rfl
  | @cons m step methods steps hm _ ih =>
    by_cases hr : m.IsPending ∧ m.isStatic = false
    · rw [List.filter_cons_of_pos (by simpa using hr), List.map_cons, ← ih]
      rw [List.filterMap_cons_some (by rw [hm.diagnostic, if_pos hr])]
    · rw [List.filter_cons_of_neg (by simpa using hr), ← ih]
      rw [List.filterMap_cons_none (by rw [hm.diagnostic, if_neg hr])]

/-- What becomes of a method of the class `owner`. -/
def Outcome (p : Preferences) (s : Settings) (owner : String) (m m' : Method) : Prop :=
  if m.IsPending ∧ m.isStatic = true then Forwarded p s owner m m' else m' = m

/-- What an edit that succeeds does to a class. -/
theorem edit_spec {p : Preferences} {s : Settings} {label : String} {c : ClassFile}
    (hopen : s.isEnabled = true) (h : (edit p s label c).failure = none)
    (hslots : ∀ m ∈ c.methods, SlotsFit m) :
    ∃ methods, (edit p s label c).classFile = { c with methods := methods } ∧
      List.Forall₂ (Outcome p s c.name) c.methods methods ∧
      ((edit p s label c).changed = true ↔ ∃ m ∈ c.methods, m.IsPending ∧ m.isStatic = true) ∧
      (edit p s label c).diagnostics =
        (c.methods.filter fun m => m.IsPending ∧ m.isStatic = false).map (report c.name) := by
  obtain ⟨steps, hsteps, hclass, hchanged, hdiagnostics⟩ := edit_eq hopen h
  refine ⟨_, hclass, ?_, ?_, ?_⟩
  · rw [List.forall₂_map_right_iff]
    have hboth := (List.forall₂_and_left _ _).2 ⟨hslots, hsteps⟩
    refine hboth.imp fun m step ⟨hd, hm⟩ => ?_
    have hmethod := hm.method
    unfold Outcome
    by_cases hp : m.IsPending ∧ m.isStatic = true
    · rw [if_pos hp] at hmethod ⊢
      exact forwarded_of_forward? hmethod hd
    · rw [if_neg hp] at hmethod ⊢
      exact hmethod
  · rw [hchanged, any_changed hsteps]
  · rw [hdiagnostics, filterMap_diagnostic hsteps]

/-- Settings that name a platform and nothing else. -/
def ofPlatform (name : String) : Settings := ⟨⟨[(Key.platformName, name)]⟩, ""⟩

/-- A class with a method to forward, one that cannot be, and one that has been. -/
def marked : ClassFile :=
  let current := Marker.current.descriptor
  let legacy := Marker.legacy.descriptor
  let c := ClassFile.bare 52 0x21 "a/B$C" none
  let c := c.addMethod ((Method.bare 0x9 "f" "(JI)I").annotate current false)
  let c := c.addMethod ((Method.bare 0x1 "g" "()V").annotate legacy true)
  c.addMethod (((Method.bare 0x9 "h" "()V").annotate current false).annotate Marker.done false)

theorem edit_spec_marked :
    ∃ methods, (edit .none (ofPlatform "quilt") "a/B$C" marked).classFile =
        { marked with methods := methods } ∧
      List.Forall₂ (Outcome .none (ofPlatform "quilt") "a/B$C") marked.methods methods ∧
      ((edit .none (ofPlatform "quilt") "a/B$C" marked).changed = true ↔
        ∃ m ∈ marked.methods, m.IsPending ∧ m.isStatic = true) ∧
      (edit .none (ofPlatform "quilt") "a/B$C" marked).diagnostics =
        (marked.methods.filter fun m => m.IsPending ∧ m.isStatic = false).map (report "a/B$C") :=
  edit_spec (by decide) (by decide +kernel) (by decide +kernel)

end Forwarding

end PlatformLink
