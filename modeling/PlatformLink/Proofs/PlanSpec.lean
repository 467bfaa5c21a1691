import Mathlib.Data.List.Forall2
import PlatformLink.FileTree
import PlatformLink.Proofs.ForwardingRoundTrip
import PlatformLink.Run

/-! # What a run hands over

A plan is made from the entries that were collected, and nothing else: each of them comes to one
entry under the same path (`Plan.Treated`), and behind these stands what is emitted besides
(`Plan.Besides`). What a computation can come to does not depend on the log before it
(`Logged.Yields`), so that a run succeeds just when its plan can be made and written
(`Run.ends_transform_iff`). `Run.conserves_of_transform` counts out what such a run keeps.
-/

namespace PlatformLink
set_option autoImplicit false

open Forwarding (edit)

/-! ## Logged computations -/

namespace Logged

variable {α β : Type}

/-- Whatever has been logged before, the values that `x` can come to are those of `P`. -/
def Yields (x : Logged α) (P : α → Prop) : Prop :=
  ∀ log a, (∃ log', x.run.run log = (.ok a, log')) ↔ P a

theorem Yields.congr {x : Logged α} {P Q : α → Prop} (h : Yields x P) (hiff : ∀ a, P a ↔ Q a) :
    Yields x Q :=
  fun log a => (h log a).trans (hiff a)

theorem yields_pure (a : α) : Yields (pure a) (· = a) := by
  intro log b
  constructor
  · rintro ⟨log', h⟩
    cases h
    rfl
  · rintro rfl
    exact ⟨log, rfl⟩

theorem yields_lift (r : Except RunError α) : Yields (liftM r) (r = .ok ·) := by
  intro log a
  constructor
  · rintro ⟨log', h⟩
    cases h
    rfl
  · rintro rfl
    exact ⟨log, rfl⟩

theorem yields_throw (e : RunError) : Yields (throw e : Logged α) fun _ => False := by
  intro log a
  constructor
  · rintro ⟨log', h⟩
    cases h
  · exact False.elim

theorem yields_records (log : List LogRecord) : Yields (records log) fun _ => True := by
  intro before a
  exact ⟨fun _ => trivial, fun _ => ⟨before ++ log, rfl⟩⟩

theorem Yields.bind {x : Logged α} {f : α → Logged β} {P : α → Prop} {Q : α → β → Prop}
    (hx : Yields x P) (hf : ∀ a, Yields (f a) (Q a)) :
    Yields (x >>= f) fun b => ∃ a, P a ∧ Q a b := by
  intro log b
  constructor
  · rintro ⟨log'', h⟩
    rw [ExceptT.run_bind, StateT.run_bind] at h
    match hrun : x.run.run log with
    | (.error e, log') =>
      rw [hrun] at h
      cases h
    | (.ok a, log') =>
      rw [hrun] at h
      exact ⟨a, (hx log a).1 ⟨log', hrun⟩, (hf a log' b).1 ⟨log'', h⟩⟩
  · rintro ⟨a, ha, hb⟩
    obtain ⟨log', hrun⟩ := (hx log a).2 ha
    obtain ⟨log'', hrest⟩ := (hf a log' b).2 hb
    refine ⟨log'', ?_⟩
    rw [ExceptT.run_bind, StateT.run_bind, hrun]
    exact hrest

theorem Yields.after {x : Logged α} {y : Logged β} {P : α → Prop} {Q : β → Prop} {a : α}
    (hx : Yields x P) (ha : P a) (hy : Yields y Q) : Yields (do let _ ← x; y) Q :=
  (hx.bind fun _ => hy).congr fun _ => ⟨fun ⟨_, _, hb⟩ => hb, fun hb => ⟨a, ha, hb⟩⟩

theorem Yields.mapM {f : α → Logged β} {R : α → β → Prop} (hf : ∀ a, Yields (f a) (R a))
    (l : List α) : Yields (l.mapM f) (List.Forall₂ R l) := by
  induction l with
  | nil =>
    rw [List.mapM_nil]
    exact (yields_pure []).congr fun bs => List.forall₂_nil_left_iff.symm
  | cons a l ih =>
    rw [List.mapM_cons]
    refine ((hf a).bind fun b => ih.bind fun bs => yields_pure (b :: bs)).congr fun cs => ?_
    rw [List.forall₂_cons_left_iff]
    constructor
    · rintro ⟨b, hb, bs, hbs, rfl⟩
      exact ⟨b, bs, hb, hbs, rfl⟩
    · rintro ⟨b, bs, hb, hbs, rfl⟩
      exact ⟨b, hb, bs, hbs, rfl⟩

end Logged

/-! ## Results -/

theorem classInContext_eq_ok_iff {α : Type} {context : String} {r : Except ClassError α} {a : α} :
    classInContext context r = .ok a ↔ r = .ok a := by
  cases r <;> simp [classInContext, Except.mapError]

/-! ## Collecting -/

namespace Entry

/-- The entry of a file under the names that lead to it. -/
def ofFile (f : List String × Content) : Entry := ⟨"/".intercalate f.1, f.2⟩

/-- The entry of an archive's member whose data can be had. -/
def Stands (m : Archive.Member) (e : Entry) : Prop :=
  m.name = e.path ∧ ∃ octets, m.data = .intact octets ∧ e.content = .raw octets

/-- The entries are the files of what stands at the path `input`, in whatever order. -/
inductive Gathered (input : String) : Snapshot → List Entry → Prop
  | directory {files : List (List String × Content)} {entries : List Entry}
      (perm : entries.Perm (files.map ofFile)) : Gathered input (.directory files) entries
  | archive {content : Content} {members ordered : List Archive.Member} {entries : List Entry}
      (path : isArchivePath input = true) (opened : content.members? = some members)
      (perm : ordered.Perm (members.filter fun m => !EntryName.isDirectory m.name))
      (stand : List.Forall₂ Stands ordered entries) : Gathered input (.file content) entries
  | classFile {content : Content} {c : ClassFile} (path : Path.extension? input = some "class")
      (read : ClassFile.read content.octets = .ok c) :
      Gathered input (.file content) [⟨c.name ++ ".class", content⟩]

theorem ofMember_eq_ok_iff {input : String} {m : Archive.Member} {e : Entry} :
    ofMember input m = .ok e ↔ Stands m e := by
  obtain ⟨path, content⟩ := e
  unfold ofMember Stands
  cases m.data <;> simp [eq_comm]

theorem ofArchive_eq_ok_iff {input : String} {members : List Archive.Member}
    {entries : List Entry} :
    ofArchive input members = .ok entries ↔
      members.forM (checkMember input) = .ok () ∧
        List.Forall₂ Stands
          ((members.filter fun m => !EntryName.isDirectory m.name).mergeSort
            fun a b => decide (a.name ≤ b.name)) entries := by
  have hstands : (fun m e => ofMember input m = .ok e) = Stands := by
    funext m e
    exact propext ofMember_eq_ok_iff
  unfold ofArchive
  rw [bind_eq_ok_iff, ← hstands]
  constructor
  · rintro ⟨⟨⟩, hchecked, h⟩
    exact ⟨hchecked, mapM_eq_ok_iff.1 h⟩
  · rintro ⟨hchecked, h⟩
    exact ⟨(), hchecked, mapM_eq_ok_iff.2 h⟩

theorem gathered_of_collect {input : String} {snapshot : Snapshot} {entries : List Entry}
    (h : collect input snapshot = .ok entries) : Gathered input snapshot entries := by
  cases snapshot with
  | missing => cases h
  | directory files =>
    cases h
    exact .directory ((List.mergeSort_perm _ _).map _)
  | file content =>
    simp only [collect] at h
    split at h
    · rename_i hpath
      split at h
      · rename_i members hmembers
        obtain ⟨-, hstand⟩ := ofArchive_eq_ok_iff.1 h
        exact .archive hpath hmembers (List.mergeSort_perm _ _) hstand
      · cases h
    · split at h
      · rename_i hpath
        obtain ⟨c, hread, h⟩ := bind_eq_ok_iff.1 h
        cases h
        exact .classFile hpath (classInContext_eq_ok_iff.1 hread)
      · cases h

/-- Every manifest stands in front, and nothing else has changed its place. -/
structure ManifestFirst (collected ordered : List Entry) : Prop where
  perm : ordered.Perm collected
  split : ∃ manifests others, ordered = manifests ++ others ∧
    manifests.Sublist collected ∧ (∀ e ∈ manifests, e.path = manifestPath) ∧
      others.Sublist collected ∧ ∀ e ∈ others, e.path ≠ manifestPath

theorem manifestFirst_spec (collected : List Entry) :
    ManifestFirst collected (manifestFirst collected) where
  perm := List.filter_append_perm _ _
  split := by
    refine ⟨_, _, rfl, List.filter_sublist, ?_, List.filter_sublist, ?_⟩
    · intro e he
      exact beq_iff_eq.1 (List.mem_filter.1 he).2
    · intro e he
      exact bne_iff_ne.1 (List.mem_filter.1 he).2

end Entry

/-! ## Plans -/

namespace Plan

variable {p : Preferences} {s : Settings}

/-- What becomes of an entry: a class that its edit changes is written anew and accepted by the
second grammar, everything else stays as it is. -/
inductive Treated (p : Preferences) (s : Settings) (e : Entry) : Processed → Prop
  | resource (resource : e.isClass = false) : Treated p s e ⟨e, false, []⟩
  | kept {c : ClassFile} (isClass : e.isClass = true)
      (read : ClassFile.read e.content.octets = .ok c)
      (failure : (edit p s c.name c).failure = none)
      (changed : (edit p s c.name c).changed = false) :
      Treated p s e ⟨e, false, (edit p s c.name c).diagnostics⟩
  | rewritten {c : ClassFile} {octets : Bytes} (isClass : e.isClass = true)
      (read : ClassFile.read e.content.octets = .ok c)
      (failure : (edit p s c.name c).failure = none)
      (changed : (edit p s c.name c).changed = true)
      (write : (edit p s c.name c).classFile.write = .ok octets)
      (accepted : Acceptance.accepts octets = true) :
      Treated p s e ⟨⟨e.path, .raw octets⟩, true, (edit p s c.name c).diagnostics⟩

/-- What is emitted behind the entries: nothing when the gate is closed, and else the helper class,
accepted by the second grammar. -/
inductive Besides (p : Preferences) (s : Settings) : List Entry → Prop
  | closed (gate : s.isEnabled = false) : Besides p s []
  | helper {octets : Bytes} (gate : s.isEnabled = true)
      (build : PlatformClass.build s (Forwarding.helperName p s) = .ok octets)
      (accepted : Acceptance.accepts octets = true) :
      Besides p s [⟨Forwarding.helperName p s ++ ".class", .raw octets⟩]

theorem checkedOctets_eq_ok_iff {path : String} {c : ClassFile} {octets : Bytes} :
    checkedOctets path c = .ok octets ↔
      c.write = .ok octets ∧ Acceptance.accepts octets = true := by
  unfold checkedOctets
  rw [bind_eq_ok_iff]
  constructor
  · rintro ⟨octets', hwrite, h⟩
    split at h
    · rename_i haccepted
      cases h
      exact ⟨classInContext_eq_ok_iff.1 hwrite, haccepted⟩
    · cases h
  · rintro ⟨hwrite, haccepted⟩
    refine ⟨octets, classInContext_eq_ok_iff.2 hwrite, ?_⟩
    rw [if_pos haccepted]
    rfl

/-- What becomes of an entry that holds the class `c`. -/
def Outcome (p : Preferences) (s : Settings) (e : Entry) (c : ClassFile) (r : Processed) : Prop :=
  (edit p s c.name c).failure = none ∧
    if (edit p s c.name c).changed = true then
      ∃ octets, checkedOctets e.path (edit p s c.name c).classFile = .ok octets ∧
        r = ⟨⟨e.path, .raw octets⟩, true, (edit p s c.name c).diagnostics⟩
    else r = ⟨e, false, (edit p s c.name c).diagnostics⟩

theorem yields_processClass (e : Entry) (c : ClassFile) :
    (processClass p s e c).Yields (Outcome p s e c) := by
  unfold processClass Outcome
  refine (Logged.yields_records _).after (a := ()) trivial ?_
  cases (edit p s c.name c).failure with
  | some e => exact (Logged.yields_throw _).congr fun r => by simp
  | none =>
    simp only [true_and]
    split
    · exact (Logged.yields_lift _).bind fun octets => Logged.yields_pure _
    · exact Logged.yields_pure _

theorem treated_iff {e : Entry} {r : Processed} : Treated p s e r ↔
    if e.isClass = true then ∃ c, ClassFile.read e.content.octets = .ok c ∧ Outcome p s e c r
    else r = ⟨e, false, []⟩ := by
  unfold Outcome
  constructor
  · intro htreated
    cases htreated with
    | resource hresource => simp [hresource]
    | kept hclass hread hfailure hchanged =>
      rw [if_pos hclass]
      exact ⟨_, hread, hfailure, by rw [hchanged]; rfl⟩
    | rewritten hclass hread hfailure hchanged hwrite haccepted =>
      rw [if_pos hclass]
      refine ⟨_, hread, hfailure, ?_⟩
      rw [if_pos hchanged]
      exact ⟨_, checkedOctets_eq_ok_iff.2 ⟨hwrite, haccepted⟩, rfl⟩
  · split
    next hclass =>
      rintro ⟨c, hread, hfailure, houtcome⟩
      split at houtcome
      next hchanged =>
        obtain ⟨octets, hoctets, rfl⟩ := houtcome
        obtain ⟨hwrite, haccepted⟩ := checkedOctets_eq_ok_iff.1 hoctets
        exact .rewritten hclass hread hfailure hchanged hwrite haccepted
      next hchanged =>
        subst houtcome
        exact .kept hclass hread hfailure (Bool.eq_false_iff.2 hchanged)
    next hclass =>
      rintro rfl
      exact .resource (Bool.eq_false_iff.2 hclass)

theorem yields_process (e : Entry) : (process p s e).Yields (Treated p s e) := by
  unfold process
  split
  next hclass =>
    refine ((Logged.yields_lift _).bind (yields_processClass e)).congr fun r => ?_
    rw [treated_iff, if_pos hclass]
    simp only [classInContext_eq_ok_iff]
  next hclass =>
    refine (Logged.yields_pure _).congr fun r => ?_
    rw [treated_iff, if_neg hclass]

theorem besides_iff {assets : List Entry} : Besides p s assets ↔
    ∃ files, (PlatformClass.emit p s).2 = .ok files ∧
      assets = files.map fun f => ⟨f.1, .raw f.2⟩ := by
  simp only [PlatformClass.emit]
  constructor
  · intro h
    cases h with
    | closed hgate =>
      rw [hgate]
      exact ⟨[], rfl, rfl⟩
    | helper hgate hbuild haccepted =>
      refine ⟨[(Forwarding.helperName p s ++ ".class", _)], ?_, rfl⟩
      rw [if_pos hgate, hbuild]
      exact if_pos haccepted
  · rintro ⟨files, hfiles, rfl⟩
    split at hfiles
    next hgate =>
      split at hfiles
      next => cases hfiles
      next octets hbuild =>
        split at hfiles
        next haccepted =>
          cases hfiles
          exact .helper hgate hbuild haccepted
        next => cases hfiles
    next hgate =>
      cases hfiles
      exact .closed (Bool.eq_false_iff.2 hgate)

theorem yields_emitted : (emitted p s).Yields (Besides p s) := by
  unfold emitted
  refine (Logged.yields_records _).after (a := ()) trivial ?_
  refine ((Logged.yields_records _).after (a := ()) trivial
    ((Logged.yields_lift _).bind fun files => Logged.yields_pure _)).congr fun assets => ?_
  simp only [classInContext_eq_ok_iff]
  exact besides_iff.symm

/-- The plan of what has become of some entries and of what is emitted besides. -/
def ofProcessed (entries : List Entry) (processed : List Processed) (besides : List Entry) :
    Plan where
  entries := processed.map (·.entry) ++ besides
  classCount := (entries.filter Entry.isClass).length
  rewrittenCount := (processed.filter (·.changed)).length
  diagnostics := processed.flatMap (·.diagnostics)

/-- A plan that can come from the entries of what stands at the path `input`. -/
def Makes (p : Preferences) (s : Settings) (input : String) (snapshot : Snapshot) (plan : Plan) :
    Prop :=
  ∃ collected, Entry.collect input snapshot = .ok collected ∧
    ∃ processed, List.Forall₂ (Treated p s) (Entry.manifestFirst collected) processed ∧
      ∃ besides, Besides p s besides ∧
        plan = ofProcessed (Entry.manifestFirst collected) processed besides

theorem yields_make (input : String) (snapshot : Snapshot) :
    (make p s input snapshot).Yields (Makes p s input snapshot) :=
  (Logged.yields_lift _).bind fun collected =>
    (Logged.Yields.mapM yields_process (Entry.manifestFirst collected)).bind fun _ =>
      yields_emitted.bind fun _ => Logged.yields_pure _

end Plan

/-! ## Runs on trees -/

namespace Run

variable {α β : Type}

/-- On the tree `t`, with `log` behind it, the run `x` comes to `a` and leaves the tree `t'`. -/
def Ends (x : Running (StateM FileTree) α) (log : Array LogRecord) (t : FileTree) (a : α)
    (t' : FileTree) : Prop :=
  ∃ log', (x.run.run log).run t = ((.ok a, log'), t')

theorem exists_ends {x : Running (StateM FileTree) α} {log : Array LogRecord} {t : FileTree}
    (h : ((x.run.run log).run t).1.1.isOk = true) : ∃ a t', Ends x log t a t' := by
  match hrun : (x.run.run log).run t with
  | ((.ok a, log'), t') => exact ⟨a, t', log', hrun⟩
  | ((.error e, log'), t') =>
    rw [hrun] at h
    cases h

/-- Whatever has been logged before, what `x` can come to on the tree `t` and leave is given by
`R`. -/
def EndsBy (x : Running (StateM FileTree) α) (t : FileTree) (R : α → FileTree → Prop) : Prop :=
  ∀ log a t', Ends x log t a t' ↔ R a t'

theorem endsBy_pure (a : α) (t : FileTree) :
    EndsBy (pure a) t fun b t' => b = a ∧ t' = t := by
  intro log b t'
  constructor
  · rintro ⟨log', h⟩
    cases h
    exact ⟨rfl, rfl⟩
  · rintro ⟨rfl, rfl⟩
    exact ⟨log, rfl⟩

theorem endsBy_lift (r : Except RunError α) (t : FileTree) :
    EndsBy (liftM r) t fun a t' => r = .ok a ∧ t' = t := by
  intro log a t'
  constructor
  · rintro ⟨log', h⟩
    cases h
    exact ⟨rfl, rfl⟩
  · rintro ⟨rfl, rfl⟩
    exact ⟨log, rfl⟩

theorem endsBy_ofLogged {x : Logged α} {P : α → Prop} (h : x.Yields P) (t : FileTree) :
    EndsBy (ofLogged x) t fun a t' => P a ∧ t' = t := by
  intro log a t'
  constructor
  · rintro ⟨log', hrun⟩
    have hrun' : (x.run.run log, t) = ((.ok a, log'), t') := hrun
    rw [Prod.mk.injEq] at hrun'
    exact ⟨(h log a).1 ⟨log', hrun'.1⟩, hrun'.2.symm⟩
  · rintro ⟨ha, rfl⟩
    obtain ⟨log', hrun⟩ := (h log a).2 ha
    exact ⟨log', Prod.ext hrun rfl⟩

theorem endsBy_onStorage (action : StateM FileTree α) (t : FileTree) :
    EndsBy (onStorage action) t fun a t' => action t = (a, t') := by
  intro log a t'
  constructor
  · rintro ⟨log', h⟩
    cases h
    rfl
  · intro h
    refine ⟨log, ?_⟩
    change ((Except.ok (action t).1, log), (action t).2) = _
    rw [h]

theorem EndsBy.bind {x : Running (StateM FileTree) α} {f : α → Running (StateM FileTree) β}
    {t : FileTree} {R : α → FileTree → Prop} {S : α → FileTree → β → FileTree → Prop}
    (hx : EndsBy x t R) (hf : ∀ a t', EndsBy (f a) t' (S a t')) :
    EndsBy (x >>= f) t fun b t'' => ∃ a t', R a t' ∧ S a t' b t'' := by
  intro log b t''
  constructor
  · rintro ⟨log'', h⟩
    rw [ExceptT.run_bind, StateT.run_bind, StateT.run_bind] at h
    match hrun : (x.run.run log).run t with
    | ((.error e, log'), t') =>
      rw [hrun] at h
      cases h
    | ((.ok a, log'), t') =>
      rw [hrun] at h
      exact ⟨a, t', (hx log a t').1 ⟨log', hrun⟩, (hf a t' log' b t'').1 ⟨log'', h⟩⟩
  · rintro ⟨a, t', ha, hb⟩
    obtain ⟨log', hrun⟩ := (hx log a t').2 ha
    obtain ⟨log'', hrest⟩ := (hf a t' log' b t'').2 hb
    refine ⟨log'', ?_⟩
    rw [ExceptT.run_bind, StateT.run_bind, StateT.run_bind, hrun]
    exact hrest

/-- Some entries are written to the path `output` of the tree `t` without a failure, and leave the
tree `t'`. -/
def Writes (output : String) (entries : List Entry) (t t' : FileTree) : Prop :=
  (Output.write output entries : StateM FileTree Output.Written).run t = (.ok (), t')

/-- What comes of a step that writes only if `ready` holds. -/
theorem guarded_eq_iff {ready : StateM FileTree Bool} {rest : StateM FileTree Output.Written}
    {e : RunError} {t t' : FileTree} {r : Output.Written} :
    (do if ← ready then rest else return .error e : StateM FileTree Output.Written).run t =
        (r, t') ↔ r = .error e ∧ ready.run t = (false, t') ∨
          ∃ t₁, ready.run t = (true, t₁) ∧ rest.run t₁ = (r, t') := by
  rw [StateT.run_bind]
  match ready.run t with
  | (true, t₁) =>
    constructor
    · intro h
      exact .inr ⟨t₁, rfl, h⟩
    · rintro (⟨-, ⟨⟩⟩ | ⟨t₂, ⟨⟩, h⟩)
      exact h
  | (false, t₁) =>
    constructor
    · intro h
      cases h
      exact .inl ⟨rfl, rfl⟩
    · rintro (⟨rfl, ⟨⟩⟩ | ⟨t₂, ⟨⟩, -⟩)
      rfl

theorem writes_guarded_iff {ready : StateM FileTree Bool} {rest : StateM FileTree Output.Written}
    {e : RunError} {t t' : FileTree} :
    (do if ← ready then rest else return .error e : StateM FileTree Output.Written).run t =
        (.ok (), t') ↔ ∃ t₁, ready.run t = (true, t₁) ∧ rest.run t₁ = (.ok (), t') := by
  rw [guarded_eq_iff, or_iff_right]
  rintro ⟨⟨⟩, -⟩

/-- A run succeeds just when its plan can be made and is written without a failure. -/
theorem ends_transform_iff {p : Preferences} {s : Settings} {input output : String}
    {snapshot : Snapshot} {log : Array LogRecord} {t t' : FileTree} {plan : Plan} :
    Ends (transform p s input output snapshot) log t plan t' ↔
      Plan.Makes p s input snapshot plan ∧ Writes output plan.entries t t' := by
  have hends : EndsBy (transform p s input output snapshot) t fun plan t' =>
      ∃ plan' t₁, (Plan.Makes p s input snapshot plan' ∧ t₁ = t) ∧
        ∃ written t₂,
          (Output.write output plan'.entries : StateM FileTree _).run t₁ = (written, t₂) ∧
          ∃ u t₃, (written = .ok u ∧ t₃ = t₂) ∧
            ∃ u t₄, (True ∧ t₄ = t₃) ∧ plan = plan' ∧ t' = t₄ :=
    (endsBy_ofLogged (Plan.yields_make input snapshot) t).bind fun plan t₁ =>
      (endsBy_onStorage (Output.write output plan.entries) t₁).bind fun written t₂ =>
        (endsBy_lift written t₂).bind fun _ t₃ =>
          (endsBy_ofLogged (Logged.yields_records _) t₃).bind fun _ t₄ => endsBy_pure plan t₄
  rw [hends]
  constructor
  · rintro ⟨plan', t₁, ⟨hplan, rfl⟩, written, t₂, hwrite, u, t₃, ⟨rfl, rfl⟩, v, t₄, ⟨-, rfl⟩,
      rfl, rfl⟩
    exact ⟨hplan, hwrite⟩
  · rintro ⟨hplan, hwrite⟩
    exact ⟨plan, t, ⟨hplan, rfl⟩, .ok (), t', hwrite, (), t', ⟨rfl, rfl⟩, (), t', ⟨trivial, rfl⟩,
      rfl, rfl⟩

end Run

end PlatformLink
