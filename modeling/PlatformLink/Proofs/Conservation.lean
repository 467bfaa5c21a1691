import PlatformLink.Proofs.PlanSpec

/-! # What a run keeps

Nothing that was collected is lost, doubled, renamed or moved on its way to the output but for the
manifest, which goes to the front: `Run.conserves_of_transform`. An entry is written anew only when
it is a class that its edit changed, and nothing that a run makes itself goes out unless the second
grammar accepts it.
-/

namespace PlatformLink
set_option autoImplicit false

namespace Plan

variable {p : Preferences} {s : Settings} {e : Entry} {r : Processed}

theorem Treated.path_eq (h : Treated p s e r) : r.entry.path = e.path := by
  cases h <;> rfl

theorem Treated.accepted (h : Treated p s e r) (hchanged : r.changed = true) :
    Acceptance.accepts r.entry.content.octets = true := by
  cases h with
  | resource => cases hchanged
  | kept => cases hchanged
  | rewritten _ _ _ _ _ haccepted => exact haccepted

theorem Besides.accepted {assets : List Entry} (h : Besides p s assets) :
    ∀ e ∈ assets, Acceptance.accepts e.content.octets = true := by
  cases h with
  | closed => simp
  | helper _ _ haccepted =>
    intro e he
    rw [List.mem_singleton.1 he]
    exact haccepted

theorem paths_of_treated {entries : List Entry} {processed : List Processed}
    (h : List.Forall₂ (Treated p s) entries processed) :
    (processed.map (·.entry)).map (·.path) = entries.map (·.path) := by
  rw [List.map_map]
  induction h with
  | nil => rfl
  | cons head _ ih => rw [List.map_cons, List.map_cons, ih, Function.comp, head.path_eq]

/-- What a plan keeps of the entries `collected`: taken in the order `ordered`, they come to
`processed`, and `assets` are emitted besides. -/
structure Conserves (p : Preferences) (s : Settings) (collected ordered : List Entry)
    (processed : List Processed) (assets : List Entry) (plan : Plan) : Prop where
  order : Entry.ManifestFirst collected ordered
  treated : List.Forall₂ (Treated p s) ordered processed
  besides : Besides p s assets
  entries : plan.entries = processed.map (·.entry) ++ assets
  paths : plan.entries.map (·.path) = ordered.map (·.path) ++ assets.map (·.path)
  changedAccepted : ∀ r ∈ processed, r.changed = true →
    Acceptance.accepts r.entry.content.octets = true
  assetsAccepted : ∀ e ∈ assets, Acceptance.accepts e.content.octets = true
  classCount : plan.classCount = collected.countP Entry.isClass
  rewrittenCount : plan.rewrittenCount = processed.countP (·.changed)

theorem conserves_ofProcessed {collected : List Entry} {processed : List Processed}
    {assets : List Entry}
    (htreated : List.Forall₂ (Treated p s) (Entry.manifestFirst collected) processed)
    (hbesides : Besides p s assets) :
    Conserves p s collected (Entry.manifestFirst collected) processed assets
      (ofProcessed (Entry.manifestFirst collected) processed assets) where
  order := Entry.manifestFirst_spec collected
  treated := htreated
  besides := hbesides
  entries := rfl
  paths := by
    rw [ofProcessed, List.map_append, paths_of_treated htreated]
  changedAccepted := forall_mem_right_of_forall₂ htreated fun _ _ => Treated.accepted
  assetsAccepted := hbesides.accepted
  classCount := by
    rw [ofProcessed, ← List.countP_eq_length_filter]
    exact (Entry.manifestFirst_spec collected).perm.countP_eq _
  rewrittenCount := List.countP_eq_length_filter.symm

end Plan

namespace Run

/-- A run that succeeds hands over all that it collected, in the order of the collection but for the
manifest, each entry under its path, and behind it what is emitted besides. -/
theorem conserves_of_transform {p : Preferences} {s : Settings} {input output : String}
    {snapshot : Snapshot} {log : Array LogRecord} {t t' : FileTree} {plan : Plan}
    (h : Ends (transform p s input output snapshot) log t plan t') :
    ∃ collected ordered processed assets, Entry.collect input snapshot = .ok collected ∧
      Entry.Gathered input snapshot collected ∧
        Plan.Conserves p s collected ordered processed assets plan ∧
          Writes output plan.entries t t' := by
  obtain ⟨⟨collected, hcollect, processed, htreated, assets, hbesides, rfl⟩, hwrites⟩ :=
    ends_transform_iff.1 h
  exact ⟨collected, _, processed, assets, hcollect, Entry.gathered_of_collect hcollect,
    Plan.conserves_ofProcessed htreated hbesides, hwrites⟩

/-- An archive with a marked class in it. -/
def sampleTree : FileTree :=
  ⟨[(["in.jar"], .file (.archive [("a/B.class", ClassLayout.sample.encode)]))]⟩

theorem conserves_of_transform_sample :
    ∃ plan t', Ends (transform .none (Forwarding.ofPlatform "quilt") "in.jar" "out.jar"
        (sampleTree.look "in.jar")) #[] sampleTree plan t' ∧
      ∃ collected ordered processed assets,
        Entry.collect "in.jar" (sampleTree.look "in.jar") = .ok collected ∧
          Entry.Gathered "in.jar" (sampleTree.look "in.jar") collected ∧
            Plan.Conserves .none (Forwarding.ofPlatform "quilt") collected ordered processed assets
              plan ∧ Writes "out.jar" plan.entries sampleTree t' := by
  obtain ⟨plan, t', h⟩ : ∃ plan t', Ends (transform .none (Forwarding.ofPlatform "quilt") "in.jar"
      "out.jar" (sampleTree.look "in.jar")) #[] sampleTree plan t' :=
    exists_ends (by decide +kernel)
  exact ⟨plan, t', h, conserves_of_transform h⟩

end Run

end PlatformLink
