import PlatformLink.Proofs.Conservation

/-! # Runs that stop before they write

A run makes its whole plan before it asks anything of the storage. `Plan.Stops` says where the
making of a plan ends: in the collecting, at the first entry that cannot be treated, or at what is
emitted besides. `Run.stops_before_writing`: just then the run comes to that error on every storage
without an operation on it, and in all other cases it writes the entries of a complete plan.
-/

namespace PlatformLink
set_option autoImplicit false

open Forwarding (edit)

/-! ## Computations that stop -/

namespace Logged

variable {α β : Type}

/-- Whatever has been logged before, the errors that `x` can stop with are those of `P`. -/
def StopsBy (x : Logged α) (P : RunError → Prop) : Prop :=
  ∀ log e, (∃ log', x.run.run log = (.error e, log')) ↔ P e

theorem StopsBy.congr {x : Logged α} {P Q : RunError → Prop} (h : StopsBy x P)
    (hiff : ∀ e, P e ↔ Q e) : StopsBy x Q :=
  fun log e => (h log e).trans (hiff e)

theorem stopsBy_pure (a : α) : StopsBy (pure a) fun _ => False := by
  intro log e
  refine ⟨?_, False.elim⟩
  rintro ⟨log', h⟩
  cases h

theorem stopsBy_lift (r : Except RunError α) : StopsBy (liftM r) (r = .error ·) := by
  intro log e
  constructor
  · rintro ⟨log', h⟩
    cases h
    rfl
  · rintro rfl
    exact ⟨log, rfl⟩

theorem stopsBy_throw (e : RunError) : StopsBy (throw e : Logged α) (e = ·) := by
  intro log e'
  constructor
  · rintro ⟨log', h⟩
    cases h
    rfl
  · rintro rfl
    exact ⟨log, rfl⟩

theorem stopsBy_records (log : List LogRecord) : StopsBy (records log) fun _ => False := by
  intro before e
  refine ⟨?_, False.elim⟩
  rintro ⟨log', h⟩
  cases h

/-- A composition stops where its first part does, or where its second part does after a value of
the first. -/
theorem StopsBy.bind {x : Logged α} {f : α → Logged β} {P : RunError → Prop} {V : α → Prop}
    {Q : α → RunError → Prop} (hx : StopsBy x P) (hy : Yields x V) (hf : ∀ a, StopsBy (f a) (Q a)) :
    StopsBy (x >>= f) fun e => P e ∨ ∃ a, V a ∧ Q a e := by
  intro log e
  rw [ExceptT.run_bind, StateT.run_bind]
  constructor
  · rintro ⟨log'', h⟩
    match hrun : x.run.run log with
    | (.error e', log') =>
      rw [hrun] at h
      cases h
      exact .inl ((hx log e).1 ⟨_, hrun⟩)
    | (.ok a, log') =>
      rw [hrun] at h
      exact .inr ⟨a, (hy log a).1 ⟨log', hrun⟩, (hf a log' e).1 ⟨log'', h⟩⟩
  · rintro (he | ⟨a, ha, he⟩)
    · obtain ⟨log', hrun⟩ := (hx log e).2 he
      rw [hrun]
      exact ⟨log', rfl⟩
    · obtain ⟨log', hrun⟩ := (hy log a).2 ha
      obtain ⟨log'', hrest⟩ := (hf a log' e).2 he
      rw [hrun]
      exact ⟨log'', hrest⟩

theorem StopsBy.after {y : Logged β} {Q : RunError → Prop} (log : List LogRecord)
    (hy : StopsBy y Q) : StopsBy (do records log; y) Q :=
  ((stopsBy_records log).bind (yields_records log) fun _ => hy).congr fun _ =>
    ⟨fun h => (h.resolve_left id).elim fun _ h => h.2, fun h => .inr ⟨(), trivial, h⟩⟩

/-- A loop stops at the first member that its body stops at. -/
theorem StopsBy.mapM {f : α → Logged β} {R : α → β → Prop} {S : α → RunError → Prop}
    (hyields : ∀ a, Yields (f a) (R a)) (hstops : ∀ a, StopsBy (f a) (S a)) (l : List α) :
    StopsBy (l.mapM f) fun e =>
      ∃ front a back, l = front ++ a :: back ∧ (∀ b ∈ front, ∃ c, R b c) ∧ S a e := by
  induction l with
  | nil =>
    rw [List.mapM_nil]
    exact (stopsBy_pure []).congr fun e => by simp
  | cons a l ih =>
    rw [List.mapM_cons]
    -- Behind a value `b` of the first member only the rest can stop: giving back the list cannot.
    have hrest (b : β) := (ih.bind (Yields.mapM hyields l) fun bs => stopsBy_pure (b :: bs)).congr
      fun e => ⟨fun h => h.resolve_right (by simp), .inl⟩
    refine ((hstops a).bind (hyields a) hrest).congr fun e => ?_
    constructor
    · rintro (he | ⟨b, hb, front, a', back, rfl, hfront, he⟩)
      · exact ⟨[], a, l, rfl, by simp, he⟩
      · exact ⟨a :: front, a', back, rfl, List.forall_mem_cons.2 ⟨⟨b, hb⟩, hfront⟩, he⟩
    · rintro ⟨front, a', back, hsplit, hfront, he⟩
      cases front with
      | nil =>
        cases hsplit
        exact .inl he
      | cons b front =>
        cases hsplit
        rw [List.forall_mem_cons] at hfront
        obtain ⟨⟨c, hc⟩, hfront⟩ := hfront
        exact .inr ⟨c, hc, front, a', back, rfl, hfront, he⟩

end Logged

theorem classInContext_eq_error_iff {α : Type} {context : String} {r : Except ClassError α}
    {e : RunError} :
    classInContext context r = .error e ↔
      ∃ err, r = .error err ∧ ⟨[context], .classFile err⟩ = e := by
  cases r <;> simp [classInContext, Except.mapError]

/-! ## Plans that cannot be made -/

namespace Plan

variable {p : Preferences} {s : Settings}

/-- Why an entry cannot be treated: it is a class that is not read, not edited, not written, or
not accepted by the second grammar. -/
inductive Refused (p : Preferences) (s : Settings) (e : Entry) : RunError → Prop
  | unread {err : ClassError} (isClass : e.isClass = true)
      (read : ClassFile.read e.content.octets = .error err) :
      Refused p s e ⟨[s!"failed to parse {e.path}"], .classFile err⟩
  | unedited {c : ClassFile} {err : ClassError} (isClass : e.isClass = true)
      (read : ClassFile.read e.content.octets = .ok c)
      (failure : (edit p s c.name c).failure = some err) :
      Refused p s e ⟨[s!"{Forwarding.rule.id} failed on {c.name}"], .classFile err⟩
  | unwritten {c : ClassFile} {err : ClassError} (isClass : e.isClass = true)
      (read : ClassFile.read e.content.octets = .ok c)
      (failure : (edit p s c.name c).failure = none)
      (changed : (edit p s c.name c).changed = true)
      (write : (edit p s c.name c).classFile.write = .error err) :
      Refused p s e ⟨[s!"failed to write {c.name}"], .classFile err⟩
  | unaccepted {c : ClassFile} {octets : Bytes} (isClass : e.isClass = true)
      (read : ClassFile.read e.content.octets = .ok c)
      (failure : (edit p s c.name c).failure = none)
      (changed : (edit p s c.name c).changed = true)
      (write : (edit p s c.name c).classFile.write = .ok octets)
      (refused : Acceptance.accepts octets = false) :
      Refused p s e ⟨[unacceptableMessage e.path], .acceptance⟩

/-- Why nothing can be emitted behind the entries: the helper class is not built, or not accepted by
the second grammar. -/
inductive Withheld (p : Preferences) (s : Settings) : RunError → Prop
  | unbuilt {err : ClassError} (gate : s.isEnabled = true)
      (build : PlatformClass.build s (Forwarding.helperName p s) = .error err) :
      Withheld p s ⟨[s!"{Forwarding.rule.id} failed to emit assets"], .classFile err⟩
  | unaccepted {octets : Bytes} (gate : s.isEnabled = true)
      (build : PlatformClass.build s (Forwarding.helperName p s) = .ok octets)
      (refused : Acceptance.accepts octets = false) :
      Withheld p s ⟨[s!"{Forwarding.rule.id} failed to emit assets"],
        .classFile (.unacceptable (Forwarding.helperName p s ++ ".class"))⟩

/-- Where the making of a plan ends without one: in the collecting, at the first entry that cannot
be treated, or at what is emitted behind the entries. -/
inductive Stops (p : Preferences) (s : Settings) (input : String) (snapshot : Snapshot) :
    RunError → Prop
  | collecting {err : RunError} (collect : Entry.collect input snapshot = .error err) :
      Stops p s input snapshot err
  | entry {collected front back : List Entry} {e : Entry} {err : RunError}
      (collect : Entry.collect input snapshot = .ok collected)
      (order : Entry.manifestFirst collected = front ++ e :: back)
      (before : ∀ e' ∈ front, ∃ r, Treated p s e' r) (refused : Refused p s e err) :
      Stops p s input snapshot err
  | besides {collected : List Entry} {err : RunError}
      (collect : Entry.collect input snapshot = .ok collected)
      (treated : ∀ e ∈ Entry.manifestFirst collected, ∃ r, Treated p s e r)
      (withheld : Withheld p s err) : Stops p s input snapshot err

theorem name_edit {c : ClassFile} (h : (edit p s c.name c).failure = none) :
    (edit p s c.name c).classFile.name = c.name := by
  obtain ⟨methods, hclass, -⟩ := Forwarding.edit_methods h
  rw [hclass]

theorem checkedOctets_eq_error_iff {path : String} {c : ClassFile} {e : RunError} :
    checkedOctets path c = .error e ↔
      (∃ err, c.write = .error err ∧ ⟨[s!"failed to write {c.name}"], .classFile err⟩ = e) ∨
        ∃ octets, c.write = .ok octets ∧ Acceptance.accepts octets = false ∧
          ⟨[unacceptableMessage path], .acceptance⟩ = e := by
  unfold checkedOctets
  cases hwrite : c.write with
  | error err => simp [classInContext, Except.mapError, bind, Except.bind]
  | ok octets =>
    cases haccepted : Acceptance.accepts octets <;>
      simp [classInContext, Except.mapError, bind, Except.bind, haccepted, throw, throwThe,
        MonadExceptOf.throw, pure, Except.pure]

/-- The errors that the entry `e` with the class `c` stops with. -/
def Failure (p : Preferences) (s : Settings) (e : Entry) (c : ClassFile) (err : RunError) : Prop :=
  match (edit p s c.name c).failure with
  | some cause => ⟨[s!"{Forwarding.rule.id} failed on {c.name}"], .classFile cause⟩ = err
  | none => (edit p s c.name c).changed = true ∧
      checkedOctets e.path (edit p s c.name c).classFile = .error err

theorem stopsBy_processClass (e : Entry) (c : ClassFile) :
    (processClass p s e c).StopsBy (Failure p s e c) := by
  unfold processClass Failure
  refine Logged.StopsBy.after _ ?_
  cases (edit p s c.name c).failure with
  | some cause => exact Logged.stopsBy_throw _
  | none =>
    dsimp only
    split
    next hchanged =>
      refine ((Logged.stopsBy_lift _).bind (Logged.yields_lift _) fun octets =>
        Logged.stopsBy_pure _).congr fun err => ?_
      simp [hchanged]
    next hchanged =>
      refine (Logged.stopsBy_pure _).congr fun err => ?_
      simp [hchanged]

theorem refused_iff {e : Entry} {err : RunError} : Refused p s e err ↔ e.isClass = true ∧
    ((∃ cause, ClassFile.read e.content.octets = .error cause ∧
        ⟨[s!"failed to parse {e.path}"], .classFile cause⟩ = err) ∨
      ∃ c, ClassFile.read e.content.octets = .ok c ∧ Failure p s e c err) := by
  constructor
  · intro h
    cases h with
    | unread hclass hread => exact ⟨hclass, .inl ⟨_, hread, rfl⟩⟩
    | unedited hclass hread hfailure =>
      exact ⟨hclass, .inr ⟨_, hread, by rw [Failure, hfailure]⟩⟩
    | unwritten hclass hread hfailure hchanged hwrite =>
      refine ⟨hclass, .inr ⟨_, hread, ?_⟩⟩
      rw [Failure, hfailure]
      exact ⟨hchanged, checkedOctets_eq_error_iff.2 (.inl ⟨_, hwrite, by rw [name_edit hfailure]⟩)⟩
    | unaccepted hclass hread hfailure hchanged hwrite hrefused =>
      refine ⟨hclass, .inr ⟨_, hread, ?_⟩⟩
      rw [Failure, hfailure]
      exact ⟨hchanged, checkedOctets_eq_error_iff.2 (.inr ⟨_, hwrite, hrefused, rfl⟩)⟩
  · rintro ⟨hclass, ⟨cause, hread, rfl⟩ | ⟨c, hread, h⟩⟩
    · exact .unread hclass hread
    · unfold Failure at h
      split at h
      next cause hfailure =>
        subst h
        exact .unedited hclass hread hfailure
      next hfailure =>
        obtain ⟨hchanged, h⟩ := h
        rcases checkedOctets_eq_error_iff.1 h with
          ⟨cause, hwrite, rfl⟩ | ⟨octets, hwrite, hrefused, rfl⟩
        · rw [name_edit hfailure]
          exact .unwritten hclass hread hfailure hchanged hwrite
        · exact .unaccepted hclass hread hfailure hchanged hwrite hrefused

theorem stopsBy_process (e : Entry) : (process p s e).StopsBy (Refused p s e) := by
  unfold process
  split
  next hclass =>
    refine ((Logged.stopsBy_lift _).bind (Logged.yields_lift _) (stopsBy_processClass e)).congr
      fun err => ?_
    rw [refused_iff]
    simp only [hclass, true_and, classInContext_eq_ok_iff, classInContext_eq_error_iff]
  next hclass =>
    refine (Logged.stopsBy_pure _).congr fun err => ?_
    rw [refused_iff]
    simp [hclass]

theorem withheld_iff {err : RunError} : Withheld p s err ↔
    ∃ cause, (PlatformClass.emit p s).2 = .error cause ∧
      ⟨[s!"{Forwarding.rule.id} failed to emit assets"], .classFile cause⟩ = err := by
  simp only [PlatformClass.emit]
  constructor
  · intro h
    cases h with
    | unbuilt hgate hbuild =>
      refine ⟨_, ?_, rfl⟩
      rw [if_pos hgate, hbuild]
    | unaccepted hgate hbuild hrefused =>
      refine ⟨_, ?_, rfl⟩
      rw [if_pos hgate, hbuild]
      dsimp only
      rw [if_neg (by rw [hrefused]; exact Bool.false_ne_true)]
  · rintro ⟨cause, hcause, rfl⟩
    split at hcause
    next hgate =>
      split at hcause
      next _ hbuild =>
        cases hcause
        exact .unbuilt hgate hbuild
      next octets hbuild =>
        split at hcause
        next => cases hcause
        next hrefused =>
          cases hcause
          exact .unaccepted hgate hbuild (Bool.eq_false_iff.2 hrefused)
    next => cases hcause

theorem stopsBy_emitted : (emitted p s).StopsBy (Withheld p s) := by
  unfold emitted
  refine Logged.StopsBy.after _ (Logged.StopsBy.after _ ?_)
  refine ((Logged.stopsBy_lift _).bind (Logged.yields_lift _) fun files =>
    Logged.stopsBy_pure _).congr fun err => ?_
  rw [withheld_iff, classInContext_eq_error_iff]
  exact ⟨fun h => h.resolve_right (by simp), .inl⟩

theorem exists_processed {entries : List Entry} (h : ∀ e ∈ entries, ∃ r, Treated p s e r) :
    ∃ processed, List.Forall₂ (Treated p s) entries processed := by
  induction entries with
  | nil => exact ⟨[], .nil⟩
  | cons e entries ih =>
    rw [List.forall_mem_cons] at h
    obtain ⟨⟨r, hr⟩, hrest⟩ := h
    obtain ⟨processed, hprocessed⟩ := ih hrest
    exact ⟨r :: processed, .cons hr hprocessed⟩

theorem stops_iff {input : String} {snapshot : Snapshot} {err : RunError} :
    Stops p s input snapshot err ↔ Entry.collect input snapshot = .error err ∨
      ∃ collected, Entry.collect input snapshot = .ok collected ∧
        ((∃ front e back, Entry.manifestFirst collected = front ++ e :: back ∧
            (∀ e' ∈ front, ∃ r, Treated p s e' r) ∧ Refused p s e err) ∨
          (∃ processed, List.Forall₂ (Treated p s) (Entry.manifestFirst collected) processed) ∧
            Withheld p s err) := by
  constructor
  · intro h
    cases h with
    | collecting hcollect => exact .inl hcollect
    | entry hcollect horder hbefore hrefused =>
      exact .inr ⟨_, hcollect, .inl ⟨_, _, _, horder, hbefore, hrefused⟩⟩
    | besides hcollect htreated hwithheld =>
      exact .inr ⟨_, hcollect, .inr ⟨exists_processed htreated, hwithheld⟩⟩
  · rintro (hcollect | ⟨collected, hcollect, h⟩)
    · exact .collecting hcollect
    · rcases h with ⟨front, e, back, horder, hbefore, hrefused⟩ | ⟨⟨processed, htreated⟩, hwithheld⟩
      · exact .entry hcollect horder hbefore hrefused
      · refine .besides hcollect (fun e he => ?_) hwithheld
        obtain ⟨r, -, hr⟩ := exists_mem_of_forall₂ htreated he
        exact ⟨r, hr⟩

theorem stopsBy_make (input : String) (snapshot : Snapshot) :
    (make p s input snapshot).StopsBy (Stops p s input snapshot) := by
  unfold make
  refine ((Logged.stopsBy_lift _).bind (Logged.yields_lift _) fun collected =>
    (Logged.StopsBy.mapM yields_process stopsBy_process (Entry.manifestFirst collected)).bind
      (Logged.Yields.mapM yields_process _) fun _ =>
        stopsBy_emitted.bind yields_emitted fun _ => Logged.stopsBy_pure _).congr fun err => ?_
  rw [stops_iff]
  simp

theorem exists_stops {input : String} {snapshot : Snapshot}
    (h : ((make p s input snapshot).run.run #[]).1.isOk = false) :
    ∃ e, Stops p s input snapshot e := by
  match hrun : (make p s input snapshot).run.run #[] with
  | (.error e, log) => exact ⟨e, (stopsBy_make input snapshot #[] e).1 ⟨log, hrun⟩⟩
  | (.ok plan, log) =>
    rw [hrun] at h
    cases h

end Plan

/-! ## Runs -/

namespace Run

variable {p : Preferences} {s : Settings} {input output : String} {snapshot : Snapshot}

/-- What is left of a run when its plan is made: it writes the entries, and logs what it did. -/
def finishing {m : Type → Type} [Monad m] [Storage m] (output : String) (plan : Plan)
    (log : Array LogRecord) : m (Except RunError Plan × Array LogRecord) := do
  match ← Output.write output plan.entries with
  | .ok () =>
    let record := ⟨.info, s!"rewrote {plan.rewrittenCount} of {plan.classCount} classes"⟩
    return (.ok plan, log.push record)
  | .error e => return (.error e, log)

section

variable {m : Type → Type} [Monad m] {α β : Type}

theorem run_bind (x : Running m α) (f : α → Running m β) (log : Array LogRecord) :
    (x >>= f).run.run log = x.run.run log >>= fun result =>
      match result with
      | (.ok a, log') => (f a).run.run log'
      | (.error e, log') => pure (.error e, log') := by
  rw [ExceptT.run_bind, StateT.run_bind]
  refine bind_congr fun result => ?_
  match result with
  | (.ok a, log') => rfl
  | (.error e, log') => rfl

theorem run_ofLogged (x : Logged α) (log : Array LogRecord) :
    (ofLogged x : Running m α).run.run log = pure (x.run.run log) := rfl

theorem run_onStorage (action : m α) (log : Array LogRecord) :
    (onStorage action : Running m α).run.run log = action >>= fun a => pure (.ok a, log) := rfl

theorem run_lift (r : Except RunError α) (log : Array LogRecord) :
    (liftM r : Running m α).run.run log = pure (r, log) := by
  cases r <;> rfl

/-- A run that makes a plan is left with `finishing` it, and any other one with nothing. -/
theorem run_transform [LawfulMonad m] [Storage m] (p : Preferences) (s : Settings)
    (input output : String) (snapshot : Snapshot) (log : Array LogRecord) :
    (transform p s input output snapshot : Running m Plan).run.run log =
      match (Plan.make p s input snapshot).run.run log with
      | (.error e, log') => pure (.error e, log')
      | (.ok plan, log') => finishing output plan log' := by
  unfold transform
  rw [run_bind, run_ofLogged, pure_bind]
  match (Plan.make p s input snapshot).run.run log with
  | (.error e, log') => rfl
  | (.ok plan, log') =>
    dsimp only
    rw [run_bind, run_onStorage, bind_assoc, finishing]
    refine bind_congr fun written => ?_
    rw [pure_bind]
    dsimp only
    rw [run_bind, run_lift, pure_bind]
    cases written with
    | error e => rfl
    | ok done =>
      dsimp only
      rw [run_bind, run_ofLogged, pure_bind]
      rfl

end

/-- What a run on the tree `t` comes to, and the tree it leaves. -/
def transformTree (p : Preferences) (s : Settings) (input output : String) (log : Array LogRecord)
    (t : FileTree) : (Except RunError Plan × Array LogRecord) × FileTree :=
  ((transform p s input output (t.look input) : Running (StateM FileTree) Plan).run.run log).run t

/-- Where the making of the plan stops, the run ends on every storage without an operation on it,
and leaves a tree as it is. Otherwise it writes the entries of a plan in which every entry was
treated and everything was emitted. -/
theorem stops_before_writing (p : Preferences) (s : Settings) (input output : String)
    (log : Array LogRecord) (t : FileTree) :
    (∀ e, Plan.Stops p s input (t.look input) e → ∃ log',
      (∀ (m : Type → Type) [Monad m] [LawfulMonad m] [Storage m],
        (transform p s input output (t.look input) : Running m Plan).run.run log =
          pure (.error e, log')) ∧
        transformTree p s input output log t = ((.error e, log'), t)) ∧
    ((∀ e, ¬ Plan.Stops p s input (t.look input) e) →
      ∃ plan log', Plan.Makes p s input (t.look input) plan ∧
        ∀ (m : Type → Type) [Monad m] [LawfulMonad m] [Storage m],
          (transform p s input output (t.look input) : Running m Plan).run.run log =
            finishing output plan log') := by
  constructor
  · intro e hstops
    obtain ⟨log', hmake⟩ := (Plan.stopsBy_make input (t.look input) log e).2 hstops
    have hrun (m : Type → Type) [Monad m] [LawfulMonad m] [Storage m] :
        (transform p s input output (t.look input) : Running m Plan).run.run log =
          pure (.error e, log') := by
      rw [run_transform, hmake]
    refine ⟨log', fun m => hrun m, ?_⟩
    rw [transformTree, hrun (StateM FileTree)]
    rfl
  · intro hstops
    match hmake : (Plan.make p s input (t.look input)).run.run log with
    | (.error e, log') =>
      exact absurd ((Plan.stopsBy_make input (t.look input) log e).1 ⟨log', hmake⟩) (hstops e)
    | (.ok plan, log') =>
      refine ⟨plan, log', (Plan.yields_make input (t.look input) log plan).1 ⟨log', hmake⟩, ?_⟩
      intro m _ _ _
      rw [run_transform, hmake]

/-- With a package for the platform and no name of it the class is forwarded and written, and the
helper class cannot be built: the archive, which is to take the output too, stays as it is. -/
theorem stops_before_writing_sample :
    ∃ e, Plan.Stops ⟨some "fabric", none⟩ ⟨.empty, "sample"⟩ "in.jar" (sampleTree.look "in.jar") e ∧
      ∃ log, transformTree ⟨some "fabric", none⟩ ⟨.empty, "sample"⟩ "in.jar" "in.jar" #[]
        sampleTree = ((.error e, log), sampleTree) := by
  have hstops : ∃ e, Plan.Stops ⟨some "fabric", none⟩ ⟨.empty, "sample"⟩ "in.jar"
      (sampleTree.look "in.jar") e :=
    Plan.exists_stops (by decide +kernel)
  obtain ⟨e, hstops⟩ := hstops
  obtain ⟨log, -, hrun⟩ :=
    (stops_before_writing ⟨some "fabric", none⟩ ⟨.empty, "sample"⟩ "in.jar" "in.jar" #[]
      sampleTree).1 e hstops
  exact ⟨e, hstops, log, hrun⟩

end Run

end PlatformLink
