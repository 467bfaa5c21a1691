import PlatformLink.Proofs.HelperClass
import PlatformLink.Proofs.PlanSpec

/-! # Entries that a run leaves alone

What a run hands over is left alone by another one with the same settings: every class is read
again and not changed (`Plan.Makes.settled`), as long as no length and no count in what is
written anew exceeds its field. The settings of two runs may differ in the identifier that stands in
when none is given, if one is given (`Settings.Agrees`).
-/

namespace PlatformLink
set_option autoImplicit false

open Forwarding (edit)

/-! ## Settings that agree -/

/-- The settings come to the same for the preferences `p`. -/
structure Settings.Agrees (p : Preferences) (s s' : Settings) : Prop where
  properties : s'.properties = s.properties
  identifier : Forwarding.uniqueIdentifier p s' = Forwarding.uniqueIdentifier p s

namespace Settings.Agrees

variable {p : Preferences} {s s' : Settings}

theorem isEnabled_eq (h : Agrees p s s') : s'.isEnabled = s.isEnabled := by
  rw [isEnabled, isEnabled, h.properties]

theorem platformName_eq (h : Agrees p s s') : s'.platformName = s.platformName := by
  rw [platformName, platformName, h.properties]

theorem helperName_eq (h : Agrees p s s') :
    Forwarding.helperName p s' = Forwarding.helperName p s := by
  rw [Forwarding.helperName, Forwarding.helperName, h.identifier]

theorem edit_eq (h : Agrees p s s') : edit p s' = edit p s := by
  have hsegment : Forwarding.platformSegment p.platformPackage s' =
      Forwarding.platformSegment p.platformPackage s := by
    rw [Forwarding.platformSegment, Forwarding.platformSegment, h.properties, h.platformName_eq]
  have hstep : Forwarding.step p s' = Forwarding.step p s := by
    funext label owner m
    have hforward : Forwarding.forward? p s' owner m = Forwarding.forward? p s owner m := by
      rw [Forwarding.forward?, Forwarding.forward?, hsegment]
    have hhelper : Forwarding.helperOf p s' = Forwarding.helperOf p s := by
      funext marker
      cases marker <;> simp [Forwarding.helperOf, h.helperName_eq]
    rw [Forwarding.step, Forwarding.step, hforward, hhelper]
  funext label c
  rw [edit, edit, h.isEnabled_eq, hstep]

theorem build_eq (h : Agrees p s s') : PlatformClass.build s' = PlatformClass.build s := by
  funext name
  rw [PlatformClass.build, PlatformClass.build, h.platformName_eq]

theorem besides_iff (h : Agrees p s s') {assets : List Entry} :
    Plan.Besides p s' assets ↔ Plan.Besides p s assets := by
  rw [Plan.besides_iff, Plan.besides_iff, PlatformClass.emit, PlatformClass.emit, h.isEnabled_eq,
    h.helperName_eq, h.build_eq]

end Settings.Agrees

namespace Plan

variable {p : Preferences} {s s' : Settings} {e : Entry} {r : Processed}

/-! ## Settled entries -/

/-- An entry that a run does not change: a class, if it is one, with nothing to edit. -/
def Settled (p : Preferences) (s : Settings) (e : Entry) : Prop :=
  e.isClass = true → ∃ c, ClassFile.read e.content.octets = .ok c ∧
    (edit p s c.name c).failure = none ∧ (edit p s c.name c).changed = false

theorem Settled.agrees (h : Settled p s e) (hagrees : s.Agrees p s') : Settled p s' e := by
  rw [Settled, hagrees.edit_eq]
  exact h

theorem Settled.exists_treated (h : Settled p s e) :
    ∃ diagnostics, Treated p s e ⟨e, false, diagnostics⟩ := by
  by_cases hclass : e.isClass = true
  · obtain ⟨c, hread, hfailure, hchanged⟩ := h hclass
    exact ⟨_, .kept hclass hread hfailure hchanged⟩
  · exact ⟨[], .resource (Bool.eq_false_iff.2 hclass)⟩

theorem exists_treated_of_settled {entries : List Entry} (h : ∀ e ∈ entries, Settled p s e) :
    ∃ processed, List.Forall₂ (Treated p s) entries processed ∧
      processed.map (·.entry) = entries ∧ ∀ r ∈ processed, r.changed = false := by
  induction entries with
  | nil => exact ⟨[], .nil, rfl, by simp⟩
  | cons e entries ih =>
    rw [List.forall_mem_cons] at h
    obtain ⟨diagnostics, hhead⟩ := h.1.exists_treated
    obtain ⟨processed, hrest, hentries, hchanged⟩ := ih h.2
    refine ⟨_ :: processed, .cons hhead hrest, ?_, ?_⟩
    · rw [List.map_cons, hentries]
    · rw [List.forall_mem_cons]
      exact ⟨rfl, hchanged⟩

/-- A run over settled entries hands them over as they are. -/
theorem exists_makes_of_settled {input : String} {snapshot : Snapshot}
    {collected assets : List Entry} (hcollect : Entry.collect input snapshot = .ok collected)
    (hsettled : ∀ e ∈ collected, Settled p s e) (hassets : Besides p s assets) :
    ∃ plan, Makes p s input snapshot plan ∧
      plan.entries = Entry.manifestFirst collected ++ assets ∧ plan.rewrittenCount = 0 := by
  have hperm := (Entry.manifestFirst_spec collected).perm
  obtain ⟨processed, htreated, hentries, hchanged⟩ :=
    exists_treated_of_settled fun e he => hsettled e (hperm.subset he)
  refine ⟨_, ⟨collected, hcollect, processed, htreated, assets, hassets, rfl⟩, ?_, ?_⟩
  · rw [ofProcessed, hentries]
  · have hnone : processed.filter (·.changed) = [] := by
      rw [List.filter_eq_nil_iff]
      intro r hr
      rw [hchanged r hr]
      exact Bool.false_ne_true
    rw [ofProcessed, hnone, List.length_nil]

theorem settled_of_not_pending {c : ClassFile} (hread : ClassFile.read e.content.octets = .ok c)
    (h : ∀ m ∈ c.methods, ¬ (m.IsPending ∧ m.isStatic = true)) : Settled p s e := by
  intro _
  have hnothing := Forwarding.doesNothing_of_not_pending h p s c.name
  exact ⟨c, hread, hnothing.failure, hnothing.changed⟩

/-! ## What a run hands over -/

/-- No length and no count in what a run writes anew exceeds its field. -/
structure Fits (p : Preferences) (s : Settings) (collected : List Entry) : Prop where
  classes : ∀ e ∈ collected, e.isClass = true → ∀ c, ClassFile.read e.content.octets = .ok c →
    (edit p s c.name c).changed = true → (edit p s c.name c).classFile.CountsFit
  helper : s.isEnabled = true → ModifiedUtf8.Fits (Forwarding.helperName p s)
  platform : s.isEnabled = true →
    ∀ platform, s.platformName = .ok platform → ModifiedUtf8.Fits platform

theorem isEnabled_of_changed {label : String} {c : ClassFile}
    (h : (edit p s label c).changed = true) : s.isEnabled = true := by
  by_contra hclosed
  rw [edit, if_neg hclosed] at h
  cases h

theorem fits_of_closed (h : s.isEnabled = false) (collected : List Entry) : Fits p s collected where
  classes _ _ _ c _ hchanged := by
    rw [isEnabled_of_changed hchanged] at h
    cases h
  helper hopen := absurd hopen (by simp [h])
  platform hopen := absurd hopen (by simp [h])

theorem Treated.settled (h : Treated p s e r) (hfits : e.isClass = true →
    ∀ c, ClassFile.read e.content.octets = .ok c → (edit p s c.name c).changed = true →
      (edit p s c.name c).classFile.CountsFit) :
    Settled p s r.entry := by
  cases h with
  | resource hresource =>
    intro hclass
    rw [hresource] at hclass
    cases hclass
  | kept _ hread hfailure hchanged => exact fun _ => ⟨_, hread, hfailure, hchanged⟩
  | @rewritten c octets hclass hread hfailure hchanged hwrite _ =>
    have hopen := isEnabled_of_changed hchanged
    obtain ⟨methods, hedit, hmethods⟩ := Forwarding.edit_methods hfailure
    obtain ⟨_, c', -, -, -, hback, hread'⟩ := ClassFile.read_of_write
      (Forwarding.rereadable_edit hread hfailure (hfits hclass c hread hchanged)) hwrite
    rw [hedit] at hback
    have hpending : ∀ m ∈ methods, ¬ (m.IsPending ∧ m.isStatic = true) :=
      forall_mem_right_of_forall₂ hmethods fun _ _ => Forwarding.not_pending_of_edited hopen
    exact settled_of_not_pending hread' (forall_mem_of_forall₂ hback.methods
      (fun _ _ => Forwarding.not_pending_of_readBack) hpending)

theorem Besides.settled {assets collected : List Entry} (h : Besides p s assets)
    (hfits : Fits p s collected) : ∀ e ∈ assets, Settled p s e := by
  cases h with
  | closed => simp
  | helper hopen hbuild _ =>
    obtain ⟨c, hread, hpending⟩ :=
      PlatformClass.read_of_build hbuild (hfits.helper hopen) (hfits.platform hopen)
    rw [List.forall_mem_singleton]
    exact settled_of_not_pending hread hpending

/-- A run changes nothing in what another one has handed over. -/
theorem Makes.settled {input : String} {snapshot : Snapshot} {plan : Plan}
    (h : Makes p s input snapshot plan)
    (hfits : ∀ collected, Entry.collect input snapshot = .ok collected → Fits p s collected) :
    ∀ e ∈ plan.entries, Settled p s e := by
  obtain ⟨collected, hcollect, processed, htreated, assets, hassets, rfl⟩ := h
  rw [ofProcessed, List.forall_mem_append, List.forall_mem_map]
  refine ⟨forall_mem_of_forall₂ htreated (fun _ _ => Treated.settled) fun e he => ?_,
    hassets.settled (hfits collected hcollect)⟩
  exact (hfits collected hcollect).classes e ((Entry.manifestFirst_spec collected).perm.subset he)

end Plan

end PlatformLink
