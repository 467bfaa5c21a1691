import PlatformLink.Proofs.ArchiveOutput
import PlatformLink.Proofs.JsonRoundTrip

/-! # What a run reports

Every class that was read adds its marked methods that are neither forwarded nor static, in their
order, to what a run has to report, and nothing else does (`Plan.exists_classes`). A run that
succeeds writes a log with just these methods, one result for each, which can be read from its text
(`Report.parse?_build`): `Run.report_of_perform`.
-/

namespace PlatformLink
set_option autoImplicit false

open Forwarding (edit)

/-! ## Methods to report -/

/-- The methods of some classes that ask to be forwarded and cannot be, each with its class. With
the gate closed there are none. -/
def unforwardable (s : Settings) (classes : List ClassFile) : List (ClassFile × Method) :=
  if s.isEnabled then
    classes.flatMap fun c =>
      (c.methods.filter fun m => m.IsPending ∧ m.isStatic = false).map fun m => (c, m)
  else []

namespace Forwarding

variable {p : Preferences} {s : Settings}

theorem diagnostics_edit {label : String} {c : ClassFile}
    (h : (edit p s label c).failure = none) :
    (edit p s label c).diagnostics =
      (unforwardable s [c]).map fun reported => report reported.1.name reported.2 := by
  unfold unforwardable
  by_cases hopen : s.isEnabled = true
  · obtain ⟨steps, hsteps, -, -, hdiagnostics⟩ := edit_eq hopen h
    rw [if_pos hopen, List.flatMap_singleton, List.map_map, hdiagnostics,
      filterMap_diagnostic hsteps]
    rfl
  · rw [if_neg hopen, edit, if_neg hopen]
    rfl

end Forwarding

theorem unforwardable_cons (s : Settings) (c : ClassFile) (classes : List ClassFile) :
    unforwardable s (c :: classes) = unforwardable s [c] ++ unforwardable s classes := by
  unfold unforwardable
  split
  · rw [List.flatMap_cons, List.flatMap_singleton]
  · rfl

theorem not_mem_unforwardable {s : Settings} {c : ClassFile} {m : Method}
    (h : Forwarding.ActsOn s m) (classes : List ClassFile) : (c, m) ∉ unforwardable s classes := by
  intro hmem
  rw [unforwardable, if_pos h.1, List.mem_flatMap] at hmem
  obtain ⟨c', -, hmem⟩ := hmem
  obtain ⟨m', hm', heq⟩ := List.mem_map.1 hmem
  cases heq
  have hstatic := (of_decide_eq_true (List.mem_filter.1 hm').2).2
  rw [h.2.2] at hstatic
  cases hstatic

namespace Plan

variable {p : Preferences} {s : Settings}

/-- The class that an entry holds, if its edit does not fail. -/
structure Holds (p : Preferences) (s : Settings) (e : Entry) (c : ClassFile) : Prop where
  read : ClassFile.read e.content.octets = .ok c
  failure : (edit p s c.name c).failure = none

theorem Treated.exists_class {e : Entry} {r : Processed} (h : Treated p s e r)
    (hclass : e.isClass = true) : ∃ c, Holds p s e c ∧
      r.diagnostics = (unforwardable s [c]).map fun m => Forwarding.report m.1.name m.2 := by
  cases h with
  | resource hresource =>
    rw [hresource] at hclass
    cases hclass
  | kept _ hread hfailure _ => exact ⟨_, ⟨hread, hfailure⟩, Forwarding.diagnostics_edit hfailure⟩
  | rewritten _ hread hfailure _ _ _ =>
    exact ⟨_, ⟨hread, hfailure⟩, Forwarding.diagnostics_edit hfailure⟩

theorem Treated.diagnostics_eq_nil {e : Entry} {r : Processed} (h : Treated p s e r)
    (hclass : e.isClass = false) : r.diagnostics = [] := by
  cases h with
  | resource => rfl
  | kept hisClass | rewritten hisClass =>
    rw [hclass] at hisClass
    cases hisClass

/-- What the entries have to report is what their classes have, one after another. -/
theorem exists_classes {entries : List Entry} {processed : List Processed}
    (h : List.Forall₂ (Treated p s) entries processed) :
    ∃ classes, List.Forall₂ (Holds p s) (entries.filter Entry.isClass) classes ∧
      processed.flatMap (·.diagnostics) =
        (unforwardable s classes).map fun m => Forwarding.report m.1.name m.2 := by
  induction h with
  | nil =>
    refine ⟨[], .nil, ?_⟩
    unfold unforwardable
    split <;> rfl
  | @cons e r entries processed htreated _ ih =>
    obtain ⟨classes, hread, hdiagnostics⟩ := ih
    by_cases hclass : e.isClass = true
    · obtain ⟨c, hc, hr⟩ := htreated.exists_class hclass
      refine ⟨c :: classes, ?_, ?_⟩
      · rw [List.filter_cons_of_pos hclass]
        exact .cons hc hread
      · rw [List.flatMap_cons, hr, hdiagnostics, unforwardable_cons s c classes, List.map_append]
    · refine ⟨classes, ?_, ?_⟩
      · rwa [List.filter_cons_of_neg hclass]
      · rw [List.flatMap_cons, htreated.diagnostics_eq_nil (Bool.eq_false_iff.2 hclass),
          List.nil_append, hdiagnostics]

end Plan

/-! ## Logs -/

namespace Report

/-- The log tells of one run, with these results. -/
def HasResults (log : Json) (results : List Json) : Prop :=
  ∃ run, log.member? "runs" = some (.array [run]) ∧ run.member? "results" = some (.array results)

theorem plain_result (n : Nat) (d : Diagnostic) : Json.Plain (n + 5) (result d) := by
  simp [result, location]

theorem plain_build (n : Nat) (rules : List Rule) (diagnostics : List Diagnostic) (i : Invocation) :
    Json.Plain (n + 9) (build rules diagnostics i) := by
  simp [build, tool, invocation, rule, plain_result]

/-- The text of a log says what the log is. -/
theorem parse?_build (rules : List Rule) (diagnostics : List Diagnostic) (i : Invocation) :
    Json.parse? ((build rules diagnostics i).pretty ++ "\n") = some (build rules diagnostics i) :=
  Json.parse?_pretty (plain_build 118 rules diagnostics i) rfl

/-- A result under the rule for marked methods that is located at a method. -/
structure IsAbout (c : ClassFile) (m : Method) (result : Json) : Prop where
  rule : result.member? "ruleId" = some (.string "EXPECT_PLATFORM")
  place : ∃ location logical, result.member? "locations" = some (.array [location]) ∧
    location.member? "logicalLocations" = some (.array [logical]) ∧
      logical.member? "name" = some (.string (c.name ++ "." ++ m.name ++ m.descriptor))

theorem hasResults_build (rules : List Rule) (diagnostics : List Diagnostic) (i : Invocation) :
    HasResults (build rules diagnostics i) (diagnostics.map result) :=
  ⟨_, rfl, rfl⟩

theorem isAbout_result (c : ClassFile) (m : Method) :
    IsAbout c m (result (Forwarding.report c.name m)) where
  rule := rfl
  place := ⟨_, _, rfl, rfl, rfl⟩

/-- The results are about the methods of some classes that are not forwarded, one for each, and
neither about one that the edit of its class replaces nor, with the gate closed, about any. -/
structure Lists (p : Preferences) (s : Settings) (classes : List ClassFile) (results : List Json) :
    Prop where
  each : List.Forall₂ (fun reported result => IsAbout reported.1 reported.2 result)
    (unforwardable s classes) results
  closed : s.isEnabled = false → results = []
  replaced : ∀ c ∈ classes, List.Forall₂ (fun m m' => m' ≠ m → (c, m) ∉ unforwardable s classes)
    c.methods (edit p s c.name c).classFile.methods

theorem lists_of_holds {p : Preferences} {s : Settings} {entries : List Entry}
    {classes : List ClassFile} (h : List.Forall₂ (Plan.Holds p s) entries classes) :
    Lists p s classes (((unforwardable s classes).map fun m =>
      Forwarding.report m.1.name m.2).map result) where
  each := by
    rw [List.forall₂_map_right_iff, List.forall₂_map_right_iff, List.forall₂_same]
    exact fun reported _ => isAbout_result reported.1 reported.2
  closed hclosed := by
    rw [unforwardable, if_neg (by rw [hclosed]; exact Bool.false_ne_true)]
    rfl
  replaced c hc := by
    obtain ⟨e, -, hholds⟩ := exists_mem_of_forall₂ h.flip hc
    obtain ⟨methods, hclass, hmethods⟩ := Forwarding.edit_methods hholds.failure
    rw [hclass]
    refine hmethods.imp fun m m' hedited hne => ?_
    unfold Forwarding.Edited at hedited
    split at hedited
    next hacted => exact not_mem_unforwardable hacted classes
    next => exact absurd hedited hne

end Report

/-! ## Runs -/

namespace Run

variable {a : Arguments} {commandLine : List String} {t t' : FileTree}

theorem EndsBy.congr {α : Type} {x : Running (StateM FileTree) α} {R S : α → FileTree → Prop}
    (h : EndsBy x t R) (hiff : ∀ a t', R a t' ↔ S a t') : EndsBy x t S :=
  fun log a t' => (h log a t').trans (hiff a t')

theorem endsBy_throw {α : Type} (e : RunError) (t : FileTree) :
    EndsBy (throw e : Running (StateM FileTree) α) t fun _ _ => False := by
  intro log b t'
  refine ⟨?_, False.elim⟩
  rintro ⟨log', h⟩
  cases h

/-- The properties that the arguments name are loaded from the tree. -/
def Loads (a : Arguments) (t : FileTree) (loaded : Properties) : Prop :=
  match a.properties with
  | none => loaded = .empty
  | some path => loadProperties path (t.look path) = .ok loaded

theorem endsBy_properties (a : Arguments) (t : FileTree) :
    EndsBy (properties a) t fun loaded t' => Loads a t loaded ∧ t' = t := by
  unfold properties Loads
  match a.properties with
  | none => exact endsBy_pure Properties.empty t
  | some path =>
    refine ((endsBy_onStorage _ t).bind fun snapshot t₁ =>
      endsBy_lift (loadProperties path snapshot) t₁).congr fun loaded t' => ?_
    constructor
    · rintro ⟨snapshot, t₁, hlook, hload, rfl⟩
      cases hlook
      exact ⟨hload, rfl⟩
    · rintro ⟨hload, rfl⟩
      exact ⟨_, _, rfl, hload, rfl⟩

/-- A report is where the arguments want it: nowhere, at the standard output, or in a file. -/
def Delivers (a : Arguments) (text : String) (t : FileTree) (printed : Option String)
    (t' : FileTree) : Prop :=
  match a.report with
  | none => printed = none ∧ t' = t
  | some path =>
    if isStandardOutput path then printed = some text ∧ t' = t
    else printed = none ∧ t.store path (.raw text.toUTF8.toList) = (true, t')

theorem endsBy_report (a : Arguments) (commandLine : List String) (diagnostics : List Diagnostic)
    (t : FileTree) : EndsBy (report a commandLine diagnostics) t
      (Delivers a (reportText diagnostics commandLine) t) := by
  unfold report Delivers
  match a.report with
  | none => exact endsBy_pure none t
  | some path =>
    dsimp only
    split
    next => exact endsBy_pure _ t
    next =>
      refine ((endsBy_onStorage _ t).bind (S := fun stored t₁ printed t' =>
        stored = true ∧ printed = none ∧ t' = t₁) fun stored t₁ => ?_).congr fun printed t' => ?_
      · cases stored with
        | true => exact (endsBy_pure none t₁).congr fun _ _ => by simp
        | false => exact (endsBy_throw _ t₁).congr fun _ _ => by simp
      · constructor
        · rintro ⟨stored, t₁, hstore, rfl, rfl, rfl⟩
          exact ⟨rfl, hstore⟩
        · rintro ⟨rfl, hstore⟩
          exact ⟨true, t', hstore, rfl, rfl, rfl⟩

/-- What a run that comes to `plan` says in the end. -/
def summaryOf (plan : Plan) (printed : Option String) : Summary :=
  ⟨plan.classCount, plan.rewrittenCount, plan.diagnostics.length, printed⟩

/-- A run over the input that stands at its path succeeds just when there is one, the properties
load, the plan can be made and written, and the report is delivered. -/
def Succeeds (a : Arguments) (commandLine : List String) (t : FileTree) (input : Snapshot)
    (summary : Summary) (t' : FileTree) : Prop :=
  input ≠ .missing ∧ ∃ loaded, Loads a t loaded ∧ ∃ plan t₁,
    (Plan.Makes (preferences a) (settings a loaded) a.input input plan ∧
      Writes a.output plan.entries t t₁) ∧ ∃ printed,
        Delivers a (reportText plan.diagnostics commandLine) t₁ printed t' ∧
          summary = summaryOf plan printed

theorem endsBy_running (a : Arguments) (commandLine : List String) (t : FileTree) :
    EndsBy (running a commandLine) t (Succeeds a commandLine t (t.look a.input)) := by
  unfold running
  refine ((endsBy_onStorage _ t).bind (S := fun input t₁ => Succeeds a commandLine t₁ input)
    fun input t₁ => ?_).congr fun summary t' => ?_
  · dsimp only
    split
    next hmissing =>
      refine (endsBy_throw _ t₁).congr fun summary t' => ?_
      rw [Succeeds, hmissing]
      simp
    next hinput =>
      -- The last two steps log the summary and return it: they neither fail nor touch the tree.
      refine ((endsBy_properties a t₁).bind fun loaded t₂ =>
        EndsBy.bind (fun _ _ _ => ends_transform_iff) fun plan t₃ =>
          (endsBy_report a commandLine plan.diagnostics t₃).bind fun printed t₄ =>
            (endsBy_ofLogged (Logged.yields_records _) t₄).bind fun _ t₅ =>
              endsBy_pure (summaryOf plan printed) t₅).congr fun summary t' => ?_
      constructor
      · rintro ⟨loaded, t₂, ⟨hloads, rfl⟩, plan, t₃, hplan, printed, t₄, hdelivers, u, t₅,
          ⟨-, rfl⟩, rfl, rfl⟩
        exact ⟨hinput, loaded, hloads, plan, t₃, hplan, printed, hdelivers, rfl⟩
      · rintro ⟨-, loaded, hloads, plan, t₃, hplan, printed, hdelivers, rfl⟩
        exact ⟨loaded, t₁, ⟨hloads, rfl⟩, plan, t₃, hplan, printed, t', hdelivers, (), t',
          ⟨trivial, rfl⟩, rfl, rfl⟩
  · constructor
    · rintro ⟨input, t₁, hlook, h⟩
      cases hlook
      exact h
    · intro h
      exact ⟨_, _, rfl, h⟩

/-- A text is where a report for the path goes: at the standard output, or in the file there. -/
def Shows (path text : String) (printed : Option String) (t : FileTree) : Prop :=
  if isStandardOutput path then printed = some text
  else t.look path = .file (.raw text.toUTF8.toList)

theorem shows_of_delivers {path text : String} {printed : Option String}
    (hreport : a.report = some path) (h : Delivers a text t printed t') :
    Shows path text printed t' := by
  rw [Delivers, hreport] at h
  dsimp only at h
  unfold Shows
  split at h
  next hstandard =>
    rw [if_pos hstandard]
    exact h.1
  next hstandard =>
    rw [if_neg hstandard]
    exact Output.look_of_store h.2

/-- A run that succeeds and reports has loaded its settings and collected its entries, and the
report, which its text is read as, lists the methods that the classes among these could not have
forwarded. -/
theorem report_of_perform {path : String} {summary : Summary} {log : Array LogRecord}
    (hreport : a.report = some path)
    (h : (perform a commandLine : StateM FileTree _).run t = ((.ok summary, log), t')) :
    ∃ loaded collected classes,
      Loads a t loaded ∧ Entry.collect a.input (t.look a.input) = .ok collected ∧
        List.Forall₂ (Plan.Holds (preferences a) (settings a loaded))
          ((Entry.manifestFirst collected).filter Entry.isClass) classes ∧
        ∃ report results, Shows path (report.pretty ++ "\n") summary.printed t' ∧
          Json.parse? (report.pretty ++ "\n") = some report ∧
            Report.HasResults report results ∧
              Report.Lists (preferences a) (settings a loaded) classes results := by
  obtain ⟨-, loaded, hloads, plan, t₁, ⟨hmakes, -⟩, printed, hdelivers, rfl⟩ :=
    (endsBy_running a commandLine t #[] summary t').1 ⟨log, h⟩
  obtain ⟨collected, hcollect, processed, htreated, assets, -, rfl⟩ := hmakes
  obtain ⟨classes, hclasses, hdiagnostics⟩ := Plan.exists_classes htreated
  refine ⟨loaded, collected, classes, hloads, hcollect, hclasses, _, _,
    shows_of_delivers hreport hdelivers, Report.parse?_build _ _ _,
    Report.hasResults_build _ _ _, ?_⟩
  rw [Plan.ofProcessed, hdiagnostics]
  exact Report.lists_of_holds hclasses

/-- An archive with a class that has a method to report between others. -/
def markedTree : FileTree :=
  ⟨[(["in.jar"], .file (.archive [("a/B$C.class", Forwarding.marked.write.toOption.getD [])]))]⟩

def reportingArguments : Arguments :=
  { input := "in.jar", output := "out.jar", properties := none, platformName := some "quilt"
    platformPackage := none, uniqueIdentifier := none, report := some "report.json"
    quiet := true, timing := false }

theorem report_of_perform_sample :
    ∃ summary log t', (perform reportingArguments [] : StateM FileTree _).run markedTree =
        ((.ok summary, log), t') ∧ summary.diagnosticCount = 1 ∧
      ∃ loaded collected classes, Loads reportingArguments markedTree loaded ∧
        Entry.collect "in.jar" (markedTree.look "in.jar") = .ok collected ∧
          List.Forall₂ (Plan.Holds (preferences reportingArguments)
            (settings reportingArguments loaded))
              ((Entry.manifestFirst collected).filter Entry.isClass) classes ∧
            ∃ report results,
              Shows "report.json" (report.pretty ++ "\n") summary.printed t' ∧
                Json.parse? (report.pretty ++ "\n") = some report ∧
                  Report.HasResults report results ∧
                    Report.Lists (preferences reportingArguments)
                      (settings reportingArguments loaded) classes results := by
  have hcount : (((perform reportingArguments [] : StateM FileTree _).run
      markedTree).1.1.toOption.map (·.diagnosticCount)) = some 1 := by
    decide +kernel
  match hrun : (perform reportingArguments [] : StateM FileTree _).run markedTree with
  | ((.ok summary, log), t') =>
    rw [hrun] at hcount
    exact ⟨summary, log, t', rfl, Option.some.inj hcount, report_of_perform rfl hrun⟩
  | ((.error e, log), t') =>
    rw [hrun] at hcount
    cases hcount

end Run

end PlatformLink
