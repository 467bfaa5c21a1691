import PlatformLink.Proofs.ForwardingRoundTrip

/-! # Editing again

After an edit no method is left for another one to act on, whatever its settings, and the
annotation that says so is read back with the class: `Forwarding.edit_edit`.
-/

namespace PlatformLink
set_option autoImplicit false

namespace Forwarding

/-! ## Edits without anything to do -/

theorem failure_step {p : Preferences} {s : Settings} {label owner : String} {m : Method}
    (h : ¬ (m.IsPending ∧ m.isStatic = true)) : (step p s label owner m).failure = none := by
  by_cases hp : m.IsPending
  · obtain ⟨log, hstep⟩ := @step_of_isPending p s label owner m hp
    have hstatic : ¬ m.isStatic = true := fun hstatic => h ⟨hp, hstatic⟩
    rw [hstep, if_neg hstatic]
  · obtain ⟨log, hstep⟩ := @step_of_not_isPending p s label owner m hp
    rw [hstep, Step.skip]

/-- The edit succeeds, says that nothing was changed, and changes nothing. -/
structure DoesNothing (p : Preferences) (s : Settings) (label : String) (c : ClassFile) : Prop where
  failure : (edit p s label c).failure = none
  changed : (edit p s label c).changed = false
  classFile : (edit p s label c).classFile = c

theorem doesNothing_of_not_pending {c : ClassFile}
    (h : ∀ m ∈ c.methods, ¬ (m.IsPending ∧ m.isStatic = true)) (p : Preferences) (s : Settings)
    (label : String) : DoesNothing p s label c := by
  by_cases hopen : s.isEnabled = true
  · have hfailure : (edit p s label c).failure = none := by
      rw [edit, if_pos hopen, failure_ofSteps_eq_none_iff, List.forall_mem_map]
      exact fun m hm => failure_step (h m hm)
    obtain ⟨steps, hsteps, hclass, hchanged, -⟩ := edit_eq hopen hfailure
    refine ⟨hfailure, ?_, ?_⟩
    · rw [hchanged, Bool.eq_false_iff, ne_eq, any_changed hsteps]
      rintro ⟨m, hm, hpending⟩
      exact h m hm hpending
    · have hmethods : List.Forall₂ Eq c.methods (steps.map (·.method)) := by
        rw [List.forall₂_map_right_iff]
        refine ((List.forall₂_and_left _ _).2 ⟨h, hsteps⟩).imp fun m step hm => ?_
        have hmethod := hm.2.method
        rw [if_neg hm.1] at hmethod
        exact hmethod.symm
      rw [List.forall₂_eq_eq_eq] at hmethods
      rw [hclass, ← hmethods]
  · have hnothing : edit p s label c = ⟨c, false, [], [], none⟩ := by rw [edit, if_neg hopen]
    constructor <;> rw [hnothing]

/-! ## Edits of edited classes -/

theorem not_isPending_forward (target : String) (m : Method) (d : MethodDescriptor) :
    ¬ (forward target m d).IsPending := by
  intro h
  refine h.unfinished ⟨_, rfl, .marker Marker.done, ?_, rfl⟩
  simp

theorem not_pending_of_edited {p : Preferences} {s : Settings} {owner : String} {m m' : Method}
    (hopen : s.isEnabled = true) (h : Edited p s owner m m') :
    ¬ (m'.IsPending ∧ m'.isStatic = true) := by
  unfold Edited at h
  by_cases hacted : ActsOn s m
  · rw [if_pos hacted] at h
    obtain ⟨d, segment, -, -, rfl⟩ := forward?_eq_ok h
    exact fun hpending => not_isPending_forward _ m d hpending.1
  · rw [if_neg hacted] at h
    rw [h]
    exact fun hpending => hacted ⟨hopen, hpending⟩

theorem not_pending_of_readBack {pool : ConstantPool} {m m' : Method} (h : m.ReadBack pool m')
    (hm : ¬ (m.IsPending ∧ m.isStatic = true)) : ¬ (m'.IsPending ∧ m'.isStatic = true) := by
  rintro ⟨⟨hmarked, hunfinished⟩, hstatic⟩
  rw [h.visible, h.invisible] at hmarked
  rw [h.invisible] at hunfinished
  rw [Method.isStatic, h.access] at hstatic
  exact hm ⟨⟨hmarked, hunfinished⟩, hstatic⟩

/-- How often a method says that it has been forwarded. -/
def doneCount (m : Method) : Nat :=
  (m.visible.getD [] ++ m.invisible.getD []).countP fun e => e.descriptor == Marker.done

/-- After an edit no other one does anything, neither to the edited class nor to what is read after
it was written, which is written in the same octets again. -/
theorem edit_edit {octets : Bytes} {c : ClassFile} {p : Preferences} {s : Settings} {label : String}
    (hread : ClassFile.read octets = .ok c) (hopen : s.isEnabled = true)
    (h : (edit p s label c).failure = none) :
    (∀ p' s' label', DoesNothing p' s' label' (edit p s label c).classFile) ∧
      ∀ octets', (edit p s label c).classFile.CountsFit →
        (edit p s label c).classFile.write = .ok octets' →
          ∃ c', ClassFile.read octets' = .ok c' ∧ (∀ p' s' label', DoesNothing p' s' label' c') ∧
            c'.write = .ok octets' ∧
              List.Forall₂ (fun m m' => doneCount m' = doneCount m)
                (edit p s label c).classFile.methods c'.methods := by
  obtain ⟨methods, hclass, hmethods⟩ := edit_methods h
  have hpending : ∀ m' ∈ methods, ¬ (m'.IsPending ∧ m'.isStatic = true) :=
    forall_mem_right_of_forall₂ hmethods fun _ _ hm => not_pending_of_edited hopen hm
  refine ⟨?_, fun octets' hcounts hwrite => ?_⟩
  · rw [hclass]
    exact doesNothing_of_not_pending hpending
  · obtain ⟨l, c', rfl, hl, hd, hback, hread'⟩ :=
      ClassFile.read_of_write (rereadable_edit hread h hcounts) hwrite
    refine ⟨c', hread', ?_, hback.write_eq hd hl, ?_⟩
    · rw [hclass] at hback
      exact doesNothing_of_not_pending
        (forall_mem_of_forall₂ hback.methods (fun _ _ hm => not_pending_of_readBack hm) hpending)
    · refine hback.methods.imp fun m m' hm => ?_
      rw [doneCount, doneCount, hm.visible, hm.invisible]

theorem edit_edit_sample :
    (∀ p' s' label', DoesNothing p' s' label'
        (edit .none (ofPlatform "quilt") "a/B" .sample).classFile) ∧
      ∃ octets, (edit .none (ofPlatform "quilt") "a/B" .sample).classFile.write = .ok octets ∧
        ∃ c', ClassFile.read octets = .ok c' ∧ (∀ p' s' label', DoesNothing p' s' label' c') ∧
          c'.write = .ok octets ∧
            List.Forall₂ (fun m m' => doneCount m' = doneCount m)
              (edit .none (ofPlatform "quilt") "a/B" .sample).classFile.methods c'.methods := by
  obtain ⟨octets, h⟩ := exists_write_edit_sample
  obtain ⟨hnothing, hback⟩ := @edit_edit _ _ .none (ofPlatform "quilt") "a/B" ClassFile.read_sample
    (by decide) (by decide +kernel)
  exact ⟨hnothing, octets, h, hback octets (by decide +kernel) h⟩

end Forwarding

end PlatformLink
