import PlatformLink.Proofs.ForwardingSpec

/-! # Edits that fail

An edit fails at the first method it acts on that cannot be forwarded: one whose descriptor does
not parse, or for which no platform segment is known. `Forwarding.failure_edit_iff`: what is
left then is the class with the methods before that one edited, as if they were all there are,
and everything else untouched.
-/

namespace PlatformLink
set_option autoImplicit false

namespace Forwarding

/-! ## One method -/

/-- Why a method cannot be forwarded. The descriptor is looked at first. -/
inductive Refused (p : Preferences) (s : Settings) (m : Method) : ClassError → Prop
  | descriptor (h : ∀ d, MethodDescriptor.ofString m.descriptor ≠ .ok d) :
      Refused p s m (.malformedDescriptor m.descriptor)
  | platform (d : MethodDescriptor) (hd : MethodDescriptor.ofString m.descriptor = .ok d)
      (h : segment? p s = none) : Refused p s m (.missingProperty Key.platformName)

theorem platformSegment_eq_error_iff {p : Preferences} {s : Settings} {e : ClassError} :
    platformSegment p.platformPackage s = .error e ↔
      segment? p s = none ∧ e = .missingProperty Key.platformName := by
  unfold platformSegment segment?
  cases p.platformPackage with
  | some supplied => simp
  | none =>
    cases s.properties.get? Key.platformPackage with
    | some property => simp
    | none =>
      cases h : s.properties.get? Key.platformName with
      | none => simp [Settings.platformName, h, bind, Except.bind, eq_comm]
      | some name => simp [Settings.platformName, h, bind, Except.bind, pure, Except.pure]

theorem forward?_eq_error_iff {p : Preferences} {s : Settings} {owner : String} {m : Method}
    {e : ClassError} : forward? p s owner m = .error e ↔ Refused p s m e := by
  unfold forward?
  by_cases hd : ∃ d, MethodDescriptor.ofString m.descriptor = .ok d
  · obtain ⟨d, hd⟩ := hd
    rw [hd]
    constructor
    · intro h
      cases hs : platformSegment p.platformPackage s with
      | ok segment => rw [hs] at h; cases h
      | error e' =>
        rw [hs] at h
        cases h
        obtain ⟨hnone, rfl⟩ := platformSegment_eq_error_iff.1 hs
        exact .platform d hd hnone
    · rintro (hd' | ⟨d', -, hnone⟩)
      · exact absurd hd (hd' d)
      · rw [platformSegment_eq_error_iff.2 ⟨hnone, rfl⟩]
        rfl
  · have hnot : ∀ d, MethodDescriptor.ofString m.descriptor ≠ .ok d := fun d h => hd ⟨d, h⟩
    rw [MethodDescriptor.ofString_eq_error hnot]
    constructor
    · intro h
      cases h
      exact .descriptor hnot
    · rintro (_ | ⟨d, hd', -⟩)
      · rfl
      · exact absurd hd' (hnot d)

theorem failure_step_iff {p : Preferences} {s : Settings} {label owner : String} {m : Method}
    {e : ClassError} : (step p s label owner m).failure = some e ↔
      m.IsPending ∧ m.isStatic = true ∧ Refused p s m e := by
  by_cases hp : m.IsPending
  · obtain ⟨log, hstep⟩ := @step_of_isPending p s label owner m hp
    rw [hstep, ← @forward?_eq_error_iff p s owner]
    by_cases hstatic : m.isStatic = true
    · cases hr : forward? p s owner m <;> simp [hp, hstatic]
    · simp [hstatic]
  · obtain ⟨log, hstep⟩ := @step_of_not_isPending p s label owner m hp
    simp [hstep, hp, Step.skip]

/-- The step of a method that is refused keeps it, and says no more than that it was begun. -/
theorem step_of_refused {p : Preferences} {s : Settings} {label owner : String} {m : Method}
    {e : ClassError} (h : (step p s label owner m).failure = some e) :
    ∃ text, step p s label owner m = ⟨m, false, [⟨.debug, text⟩], none, some e⟩ := by
  obtain ⟨hp, hstatic, hrefused⟩ := failure_step_iff.1 h
  obtain ⟨hmarked, hf⟩ := Method.isPending_iff.1 hp
  obtain ⟨marker, hmarker⟩ := Option.isSome_iff_exists.1 hmarked
  unfold step
  simp only [hmarker, hf, hstatic, (@forward?_eq_error_iff p s owner m e).2 hrefused]
  exact ⟨_, rfl⟩

/-! ## A class -/

theorem succeeded_append {front back : List Step} {step : Step} {e : ClassError}
    (hfront : ∀ st ∈ front, st.failure = none) (hstep : step.failure = some e) :
    succeeded (front ++ step :: back) = front := by
  rw [succeeded, List.takeWhile_append_of_pos (fun st hst => by rw [hfront st hst]; rfl),
    List.takeWhile_cons_of_neg (by simp [hstep]), List.append_nil]

theorem ofSteps_append {c : ClassFile} {front back : List Step} {step : Step} {e : ClassError}
    (hfront : ∀ st ∈ front, st.failure = none) (hstep : step.failure = some e) :
    Edit.ofSteps c (front ++ step :: back) =
      { classFile := { c with methods := front.map (·.method) ++ c.methods.drop front.length }
        changed := front.any (·.changed)
        log := front.flatMap (·.log) ++ step.log
        diagnostics := front.filterMap (·.diagnostic)
        failure := some e } := by
  simp only [Edit.ofSteps, succeeded_append hfront hstep, List.take_length_add_append,
    List.take_succ_cons, List.take_zero, List.flatMap_append, List.flatMap_cons, List.flatMap_nil,
    List.append_nil, List.drop_left, List.head?_cons, Option.bind_some, hstep]

theorem ofSteps_of_succeeded {c : ClassFile} {steps : List Step}
    (h : ∀ st ∈ steps, st.failure = none) (hlength : c.methods.length = steps.length) :
    Edit.ofSteps c steps =
      { classFile := { c with methods := steps.map (·.method) }
        changed := steps.any (·.changed)
        log := steps.flatMap (·.log)
        diagnostics := steps.filterMap (·.diagnostic)
        failure := none } := by
  have htake : steps.take (steps.length + 1) = steps := List.take_of_length_le (Nat.le_succ _)
  have hdrop : c.methods.drop steps.length = [] := List.drop_of_length_le (Nat.le_of_eq hlength)
  simp only [Edit.ofSteps, succeeded_eq h, htake, hdrop, List.append_nil, List.drop_length,
    List.head?_nil, Option.bind_none]

theorem exists_first_failure {c : ClassFile} {steps : List Step} {e : ClassError}
    (h : (Edit.ofSteps c steps).failure = some e) : ∃ front step back,
      steps = front ++ step :: back ∧ (∀ st ∈ front, st.failure = none) ∧
        step.failure = some e := by
  induction steps with
  | nil => simp [Edit.ofSteps, succeeded] at h
  | cons step steps ih =>
    cases hf : step.failure with
    | some e' =>
      have he : some e' = some e := by simpa [Edit.ofSteps, succeeded, hf] using h
      exact ⟨[], step, steps, rfl, by simp, hf.trans he⟩
    | none =>
      obtain ⟨front, st, back, rfl, hfront, hst⟩ :=
        ih (by simpa [Edit.ofSteps, succeeded, hf] using h)
      exact ⟨step :: front, st, back, rfl, List.forall_mem_cons.2 ⟨hf, hfront⟩, hst⟩

/-- The edit of `c` breaks off at the method `m`, refused for the reason `e`, after the methods
`before`. -/
structure BreaksOff (p : Preferences) (s : Settings) (label : String) (c : ClassFile)
    (before : List Method) (m : Method) (after : List Method) (e : ClassError) : Prop where
  methods : c.methods = before ++ m :: after
  acts : ActsOn s m
  refused : Refused p s m e
  earlier : ∀ m' ∈ before, ActsOn s m' → ∀ e', ¬ Refused p s m' e'
  /-- The methods before it alone are edited without a failure. -/
  succeeds : (edit p s label { c with methods := before }).failure = none
  classFile : (edit p s label c).classFile =
    { c with methods := (edit p s label { c with methods := before }).classFile.methods ++ m :: after }
  diagnostics :
    (edit p s label c).diagnostics = (edit p s label { c with methods := before }).diagnostics
  /-- Nothing is said of what comes after the beginning of `m`. -/
  log : ∃ text, (edit p s label c).log =
    (edit p s label { c with methods := before }).log ++ [⟨.debug, text⟩]

theorem breaksOff_of_failure {p : Preferences} {s : Settings} {label : String} {c : ClassFile}
    {before after : List Method} {m : Method} {e : ClassError} (hopen : s.isEnabled = true)
    (hmethods : c.methods = before ++ m :: after)
    (hbefore : ∀ m' ∈ before, (step p s label c.name m').failure = none)
    (hm : (step p s label c.name m).failure = some e) :
    BreaksOff p s label c before m after e := by
  obtain ⟨hp, hstatic, hrefused⟩ := failure_step_iff.1 hm
  obtain ⟨text, hstep⟩ := step_of_refused hm
  have hfront : ∀ st ∈ before.map (step p s label c.name), st.failure = none :=
    List.forall_mem_map.2 hbefore
  have hpart := @ofSteps_of_succeeded { c with methods := before } _ hfront
    (List.length_map _).symm
  have hwhole := @ofSteps_append c _ (after.map (step p s label c.name)) _ _ hfront hm
  rw [← List.map_cons, ← List.map_append, ← hmethods, List.length_map,
    congrArg (List.drop before.length) hmethods, List.drop_left] at hwhole
  refine ⟨hmethods, ⟨hopen, hp, hstatic⟩, hrefused, ?_, ?_, ?_, ?_, text, ?_⟩
  · intro m' hm' ⟨_, hp', hstatic'⟩ e' hrefused'
    have hfails : (step p s label c.name m').failure = some e' :=
      failure_step_iff.2 ⟨hp', hstatic', hrefused'⟩
    rw [hbefore m' hm'] at hfails
    cases hfails
  all_goals simp only [edit, if_pos hopen, hpart, hwhole, hstep]

/-- An edit fails exactly when it breaks off at some method, and then for the reason given
there. -/
theorem failure_edit_iff {p : Preferences} {s : Settings} {label : String} {c : ClassFile}
    {e : ClassError} : (edit p s label c).failure = some e ↔
      ∃ before m after, BreaksOff p s label c before m after e := by
  constructor
  · intro h
    by_cases hopen : s.isEnabled = true
    · rw [edit, if_pos hopen] at h
      obtain ⟨front, st, back, hsteps, hfront, hst⟩ := exists_first_failure h
      obtain ⟨before, rest, hmethods, rfl, hrest⟩ := List.map_eq_append_iff.1 hsteps
      obtain ⟨m, after, rfl, rfl, -⟩ := List.map_eq_cons_iff.1 hrest
      exact ⟨before, m, after,
        breaksOff_of_failure hopen hmethods (List.forall_mem_map.1 hfront) hst⟩
    · rw [edit, if_neg hopen] at h
      cases h
  · rintro ⟨before, m, after, h⟩
    obtain ⟨hopen, hp, hstatic⟩ := h.acts
    have hbefore := h.succeeds
    rw [edit, if_pos hopen, failure_ofSteps_eq_none_iff] at hbefore
    rw [edit, if_pos hopen, h.methods, List.map_append, List.map_cons,
      ofSteps_append hbefore (failure_step_iff.2 ⟨hp, hstatic, h.refused⟩)]

/-- The method in front of the one that is refused has been reported by then. -/
example :
    let m := (Method.bare 0x9 "k" "(I").annotate Marker.current.descriptor false
    let result := edit .none (ofPlatform "quilt") "a/B$C" (marked.addMethod m)
    result.failure = some (.malformedDescriptor "(I") ∧
      result.diagnostics.map (·.methodName) = ["g"] := by
  decide +kernel

end Forwarding

end PlatformLink
