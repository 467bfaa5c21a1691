import PlatformLink.Proofs.ArchiveOutput
import PlatformLink.Proofs.Conservation
import PlatformLink.Proofs.DirectoryOutput
import PlatformLink.Proofs.SettledOutput

/-! # A run over the output of another one

With the same settings nothing is left to rewrite in what a run has written, but the helper class is
emitted again. In a directory it takes the place of the one that was collected; an archive does not
take the second one. A second run therefore succeeds and writes the same files when both write into
directories, or into archives with the gate closed, and it always fails when both write into
archives with the gate open (`Run.transforms_again`).
-/

namespace PlatformLink
set_option autoImplicit false

open Output (names? Takes)

/-! ## Files of an output -/

/-- The files that stand at a path, under their names there. -/
def Snapshot.items : Snapshot → List Archive.Item
  | .directory files => files.map fun f => (Entry.ofFile f).toItem
  | .file content => content.items?.getD []
  | .missing => []

theorem Snapshot.items_archive (items : List Archive.Item) :
    (Snapshot.file (.archive items)).items = items := by
  have hread : (items.map Archive.Member.ofItem).mapM Archive.Member.item? = some items := by
    induction items with
    | nil => rfl
    | cons item items ih =>
      rw [List.map_cons, List.mapM_cons, ih]
      rfl
  rw [Snapshot.items, Content.items?, Content.members?, Option.bind_some, hread, Option.getD_some]

namespace Entry

variable {e : Entry} {names : List String}

/-- The path ends in a name, not in a text that adds nothing to it. -/
def EndsInName (e : Entry) : Prop :=
  ∃ front last, Path.pieces e.path = front ++ [last] ∧ Path.isIdle last = false

/-- An entry that ends in a name is a class just when its file in a directory is one. -/
theorem isClass_ofFile (h : e.EndsInName) (hnames : names? e.path = some names)
    (content : Content) : (ofFile (names, content)).isClass = e.isClass := by
  obtain ⟨front, last, hpieces, hlast⟩ := h
  obtain ⟨heq, hall⟩ := Path.names?_eq_some hnames
  have hnames' : names = front.filter (!Path.isIdle ·) ++ [last] := by
    rw [heq, hpieces, List.filter_append, List.filter_cons_of_pos (by rw [hlast]; rfl),
      List.filter_nil]
  have hpieces' : Path.pieces (ofFile (names, content)).path =
      front.filter (!Path.isIdle ·) ++ [last] := by
    rw [ofFile, Path.pieces_names (by simp [hnames']) hall, hnames']
  have hends : ∀ suffix : String, '/' ∉ suffix.toList →
      (ofFile (names, content)).path.endsWith suffix = e.path.endsWith suffix := by
    intro suffix hsuffix
    rw [Bool.eq_iff_iff, Path.endsWith_iff_last hsuffix hpieces',
      Path.endsWith_iff_last hsuffix hpieces]
  rw [isClass, isClass, hends _ (by decide), hends _ (by decide)]

end Entry

/-! ## Archives -/

namespace Plan

variable {p : Preferences} {s s' : Settings} {input : String} {plan : Plan}
  {items : List Archive.Item}

theorem Makes.exists_helper {snapshot : Snapshot} (h : Makes p s input snapshot plan)
    (hopen : s.isEnabled = true) :
    ∃ e ∈ plan.entries, e.path = Forwarding.helperName p s ++ ".class" := by
  obtain ⟨collected, -, processed, -, assets, hassets, rfl⟩ := h
  cases hassets with
  | closed hclosed =>
    rw [hopen] at hclosed
    cases hclosed
  | helper => exact ⟨_, List.mem_append_right _ (List.mem_singleton_self _), rfl⟩

theorem isDirectory_class_eq_false (name : String) :
    EntryName.isDirectory (name ++ ".class") = false := by
  have hclass : ".class".toList = ['.', 'c', 'l', 'a', 's', 's'] := rfl
  rw [EntryName.isDirectory, String.toList_append, hclass, List.getLast?_append]
  rfl

/-- No archive takes a plan that has met the helper class among its own input. -/
theorem not_takes_of_helper (harchive : isArchivePath input = true) (hopen : s.isEnabled = true)
    (hhelper : ∃ item ∈ items, item.1 = Forwarding.helperName p s ++ ".class")
    (hmakes : Makes p s input (.file (.archive items)) plan) : ¬ Takes plan.entries := by
  intro htakes
  obtain ⟨collected, hcollect, processed, htreated, assets, hassets, rfl⟩ := hmakes
  obtain ⟨item, hitem, hname⟩ := hhelper
  obtain ⟨-, rfl⟩ := (Entry.collect_archive_eq_ok_iff harchive).1 hcollect
  have hfile : item ∈ Entry.sortedFiles items := by
    rw [(Entry.sortedFiles_perm items).mem_iff, List.mem_filter, hname, isDirectory_class_eq_false]
    exact ⟨hitem, rfl⟩
  have hcollected : Forwarding.helperName p s ++ ".class" ∈
      (processed.map (·.entry)).map (·.path) := by
    rw [paths_of_treated htreated]
    refine List.mem_map.2 ⟨Entry.ofItem item, ?_, hname⟩
    exact (Entry.manifestFirst_spec _).perm.mem_iff.2 (List.mem_map_of_mem hfile)
  have hnodup := htakes.nodup
  cases hassets with
  | closed hclosed =>
    rw [hopen] at hclosed
    cases hclosed
  | helper =>
    rw [ofProcessed, List.map_append, List.nodup_append] at hnodup
    exact hnodup.2.2 _ hcollected _ (by simp) rfl

theorem exists_makes_archive
    (harchive : isArchivePath input = true) (hclosed : s.isEnabled = false)
    (hsettled : ∀ e ∈ plan.entries, Settled p s e)
    (hnames : ∀ e ∈ plan.entries,
      EntryName.isDirectory e.path = false ∧ EntryName.isSafe e.path = true) :
    ∃ plan', Makes p s input (.file (.archive (plan.entries.map Entry.toItem))) plan' ∧
      plan'.rewrittenCount = 0 ∧
        (plan'.entries.map Entry.toItem).Perm (plan.entries.map Entry.toItem) := by
  have hfiles : (plan.entries.map Entry.toItem).filter
      (fun item => !EntryName.isDirectory item.1) = plan.entries.map Entry.toItem := by
    rw [List.filter_eq_self, List.forall_mem_map]
    intro e he
    rw [Entry.toItem, (hnames e he).1]
    rfl
  have hperm := Entry.sortedFiles_perm (plan.entries.map Entry.toItem)
  rw [hfiles] at hperm
  have hcollect : Entry.collect input (.file (.archive (plan.entries.map Entry.toItem))) =
      .ok ((Entry.sortedFiles (plan.entries.map Entry.toItem)).map Entry.ofItem) := by
    rw [Entry.collect_archive_eq_ok_iff harchive, List.forall_mem_map]
    exact ⟨fun e he => .inr (hnames e he).2, rfl⟩
  have hsettled' : ∀ e ∈ (Entry.sortedFiles (plan.entries.map Entry.toItem)).map Entry.ofItem,
      Settled p s e := by
    rw [List.forall_mem_map]
    intro item hitem
    obtain ⟨e, he, rfl⟩ := List.mem_map.1 (hperm.subset hitem)
    exact hsettled e he
  obtain ⟨plan', hmakes, hentries, hcount⟩ :=
    exists_makes_of_settled hcollect hsettled' (.closed hclosed)
  refine ⟨plan', hmakes, hcount, ?_⟩
  have hsame : Entry.toItem ∘ Entry.ofItem = id := rfl
  have hfirst := (Entry.manifestFirst_spec
    ((Entry.sortedFiles (plan.entries.map Entry.toItem)).map Entry.ofItem)).perm.map Entry.toItem
  rw [List.map_map, hsame, List.map_id] at hfirst
  rw [hentries, List.append_nil]
  exact hfirst.trans hperm

end Plan

/-! ## Directories -/

namespace Output.Holds

variable {t : FileTree} {root output : String} {l : Location} {entries others : List Entry}

theorem mem_items_iff (h : Holds t root l entries) {item : Archive.Item} :
    item ∈ (t.look root).items ↔ ∃ names content, t.content? (l ++ names) = some content ∧
      (Entry.ofFile (names, content)).toItem = item := by
  rw [look_of_leadsTo h.leadsTo, Snapshot.items, List.mem_map]
  simp only [Prod.exists, h.wellFormed.mem_filesBelow_iff]

/-- Entries that come to just what a directory holds make another directory that holds the same. -/
theorem exists_writes_again {t₀ : FileTree} {l' : Location} (h : Holds t root l entries)
    (hdirectory : isArchivePath output = false) (hoffers : Offers t output t₀ l')
    (hshort : ∀ e ∈ entries, ∀ names, names? e.path = some names →
      (names.foldl Path.join output).utf8ByteSize ≤ FileTree.maxPath)
    (hsound : ∀ e ∈ others, ∃ names, names? e.path = some names ∧
      t.content? (l ++ names) = some e.content)
    (hcomplete : ∀ names content, t.content? (l ++ names) = some content →
      ∃ e ∈ others, names? e.path = some names) :
    ∃ t', Run.Writes output others t t' ∧
      ∀ item, item ∈ (t'.look output).items ↔ item ∈ (t.look root).items := by
  obtain ⟨t', hwrites⟩ := exists_writes hdirectory h.wellFormed hoffers (h.compatible hshort)
    fun e he => (hsound e he).imp fun names hnames => ⟨hnames.1, e.content, hnames.2⟩
  have hagain := holds_of_writes hdirectory h.wellFormed hoffers hwrites
  have hsame : ∀ names, t'.content? (l' ++ names) = t.content? (l ++ names) := by
    intro names
    rw [hagain.content?]
    cases hcontent : t.content? (l ++ names) with
    | some content =>
      refine overlay_of_forall_eq (fun e he hnames => ?_) (.inr (hcomplete names content hcontent))
      obtain ⟨names', hnames', hcontent'⟩ := hsound e he
      rw [hnames, Option.some.injEq] at hnames'
      rw [← hnames', hcontent, Option.some.injEq] at hcontent'
      exact hcontent'.symm
    | none =>
      refine overlay_of_forall_ne fun e he hnames => ?_
      obtain ⟨names', hnames', hcontent'⟩ := hsound e he
      rw [hnames, Option.some.injEq] at hnames'
      rw [← hnames', hcontent] at hcontent'
      cases hcontent'
  refine ⟨t', hwrites, fun item => ?_⟩
  rw [hagain.mem_items_iff, h.mem_items_iff]
  simp only [hsame]

theorem settled {p : Preferences} {s : Settings} (h : Holds t root l entries)
    (hsettled : ∀ e ∈ entries, Plan.Settled p s e) (hname : ∀ e ∈ entries, e.EndsInName) :
    ∀ e ∈ Entry.ofDirectory (t.filesBelow l), Plan.Settled p s e := by
  intro file hfile
  obtain ⟨names, content, hcontent, rfl⟩ := h.mem_collected_iff.1 hfile
  rw [h.content?] at hcontent
  obtain ⟨e, he, hnames, rfl⟩ := exists_of_overlay hcontent
  rw [Plan.Settled, Entry.isClass_ofFile (hname e he) hnames]
  exact hsettled e he

theorem content?_of_last {front : List Entry} {e : Entry} (h : Holds t root l (front ++ [e])) :
    ∃ names, names? e.path = some names ∧ t.content? (l ++ names) = some e.content := by
  obtain ⟨names, hnames⟩ := Option.isSome_iff_exists.1 (h.named e (by simp))
  refine ⟨names, hnames, ?_⟩
  rw [h.content?, overlay_append, overlay, List.foldl_cons, if_pos hnames, List.foldl_nil]

/-- What is collected from a directory, and emitted besides once more, is what the directory holds
under its names. -/
theorem content?_of_collected {p : Preferences} {s : Settings} {front assets : List Entry}
    (h : Holds t root l (front ++ assets)) (hassets : Plan.Besides p s assets) :
    ∀ e ∈ Entry.manifestFirst (Entry.ofDirectory (t.filesBelow l)) ++ assets,
      ∃ names, names? e.path = some names ∧ t.content? (l ++ names) = some e.content := by
  have hperm := (Entry.manifestFirst_spec (Entry.ofDirectory (t.filesBelow l))).perm
  rw [List.forall_mem_append]
  constructor
  · intro e he
    obtain ⟨names, content, hcontent, rfl⟩ := h.mem_collected_iff.1 (hperm.subset he)
    exact ⟨names, h.names?_ofFile hcontent, hcontent⟩
  · cases hassets with
    | closed => simp
    | helper =>
      rw [List.forall_mem_singleton]
      exact h.content?_of_last

theorem exists_collected (h : Holds t root l entries) (assets : List Entry) {names : List String}
    {content : Content} (hcontent : t.content? (l ++ names) = some content) :
    ∃ e ∈ Entry.manifestFirst (Entry.ofDirectory (t.filesBelow l)) ++ assets,
      names? e.path = some names := by
  have hperm := (Entry.manifestFirst_spec (Entry.ofDirectory (t.filesBelow l))).perm
  have hmem := h.mem_collected_iff.2 ⟨names, content, hcontent, rfl⟩
  exact ⟨_, List.mem_append_left _ (hperm.mem_iff.2 hmem), h.names?_ofFile hcontent⟩

end Output.Holds

/-! ## Two runs -/

/-- The arguments of a run over the output of the one with the arguments `a`. -/
def Arguments.over (a : Arguments) (output : String) : Arguments :=
  { a with input := a.output, output := output }

namespace Run

variable {a : Arguments} {loaded : Properties} {output : String} {log : Array LogRecord}
  {t t₁ : FileTree} {plan : Plan}

/-- With the arguments `a`, and the properties that were loaded for them, a run comes to `plan` and
takes the tree `t` to `t'`. -/
def Transforms (a : Arguments) (loaded : Properties) (log : Array LogRecord) (t : FileTree)
    (plan : Plan) (t' : FileTree) : Prop :=
  Ends (transform (preferences a) (settings a loaded) a.input a.output (t.look a.input)) log t plan
    t'

/-- The identifier is given by the arguments or by the properties, and not taken from the input. -/
def IdentifierGiven (a : Arguments) (loaded : Properties) : Prop :=
  a.uniqueIdentifier.isSome = true ∨ (loaded.get? Key.uniqueIdentifier).isSome = true

instance (a : Arguments) (loaded : Properties) : Decidable (IdentifierGiven a loaded) :=
  inferInstanceAs (Decidable (_ ∨ _))

/-- The identifier that the arguments or the properties give. -/
def givenIdentifier? (a : Arguments) (loaded : Properties) : Option String :=
  a.uniqueIdentifier.or (loaded.get? Key.uniqueIdentifier)

theorem uniqueIdentifier_settings (a : Arguments) (loaded : Properties) :
    Forwarding.uniqueIdentifier (preferences a) (settings a loaded) =
      (givenIdentifier? a loaded).getD (fallbackIdentifier a.input) := by
  have hget : (settings a loaded).properties.get? Key.uniqueIdentifier =
      loaded.get? Key.uniqueIdentifier := by
    unfold settings
    cases a.platformName with
    | none => rfl
    | some name => rw [Properties.get?_set, if_neg (by decide)]
  rw [Forwarding.uniqueIdentifier, Settings.uniqueIdentifier, hget, preferences_eq,
    givenIdentifier?]
  cases a.uniqueIdentifier <;> rfl

theorem agrees_over (h : IdentifierGiven a loaded) (output : String) :
    (settings a loaded).Agrees (preferences a) (settings (a.over output) loaded) where
  properties := rfl
  identifier := by
    have hover : preferences a = preferences (a.over output) := rfl
    have hsame : givenIdentifier? (a.over output) loaded = givenIdentifier? a loaded := rfl
    have hgiven : (givenIdentifier? a loaded).isSome = true := by
      rw [givenIdentifier?, Option.isSome_or, Bool.or_eq_true]
      exact h
    obtain ⟨identifier, hidentifier⟩ := Option.isSome_iff_exists.1 hgiven
    rw [uniqueIdentifier_settings, hover, uniqueIdentifier_settings, hsame, hidentifier,
      Option.getD_some, Option.getD_some]

/-- The entries of a first run into the archive `a.output` can be collected from it, and there is
room for a second archive. -/
structure RepeatsArchive (output : String) (t₁ : FileTree) (entries : List Entry) : Prop where
  names : ∀ e ∈ entries,
    EntryName.isDirectory e.path = false ∧ EntryName.isSafe e.path = true
  room : ∃ t₀, Output.Room output t₁ t₀ ∧ (t₀.store output (.archive [])).1 = true

/-- Both runs find an empty directory, and the files of the first can lie in that of the second,
where they are the classes that they were among the entries. -/
structure RepeatsDirectory (root output : String) (t t₁ : FileTree) (entries : List Entry) :
    Prop where
  wellFormed : t.WellFormed
  first : ∃ t₀ l, Output.Offers t root t₀ l
  second : ∃ t₀ l, Output.Offers t₁ output t₀ l
  named : ∀ e ∈ entries, e.EndsInName
  short : ∀ e ∈ entries, ∀ names, names? e.path = some names →
    (names.foldl Path.join output).utf8ByteSize ≤ FileTree.maxPath

def SameFiles (t : FileTree) (path : String) (t' : FileTree) (path' : String) : Prop :=
  ∀ item, item ∈ (t.look path).items ↔ item ∈ (t'.look path').items

/-- A run over what another one with the arguments `a` has written to the tree `t₁` succeeds,
rewrites nothing and writes the same files, whatever has been logged before. -/
def Repeats (a : Arguments) (loaded : Properties) (output : String) (t₁ : FileTree) : Prop :=
  ∀ log, ∃ plan t', Transforms (a.over output) loaded log t₁ plan t' ∧ plan.rewrittenCount = 0 ∧
    SameFiles t' output t₁ a.output

theorem not_transforms_of_archive (hgiven : IdentifierGiven a loaded)
    (harchive : isArchivePath a.output = true) (harchive' : isArchivePath output = true)
    (hopen : (settings a loaded).isEnabled = true) (h : Transforms a loaded log t plan t₁)
    (log' : Array LogRecord) (plan' : Plan) (t' : FileTree) :
    ¬ Transforms (a.over output) loaded log' t₁ plan' t' := by
  intro hagain
  obtain ⟨hfirst, hwrites⟩ := ends_transform_iff.1 h
  obtain ⟨hmakes, hwrites'⟩ := ends_transform_iff.1 hagain
  have hagrees := agrees_over hgiven output
  have hlook : t₁.look (a.over output).input =
      .file (.archive (plan.entries.map Entry.toItem)) :=
    Output.look_of_writes_archive harchive hwrites
  have hhelper : ∃ item ∈ plan.entries.map Entry.toItem, item.1 =
      Forwarding.helperName (preferences a) (settings (a.over output) loaded) ++ ".class" := by
    obtain ⟨e, he, hpath⟩ := hfirst.exists_helper hopen
    rw [hagrees.helperName_eq]
    exact ⟨e.toItem, List.mem_map_of_mem he, hpath⟩
  rw [hlook] at hmakes
  have htakes := ((Output.writes_archive_iff harchive').1 hwrites').1
  refine Plan.not_takes_of_helper harchive ?_ hhelper hmakes htakes
  rw [hagrees.isEnabled_eq]
  exact hopen

theorem repeats_of_archive (hgiven : IdentifierGiven a loaded)
    (harchive : isArchivePath a.output = true) (harchive' : isArchivePath output = true)
    (hclosed : (settings a loaded).isEnabled = false) (h : Transforms a loaded log t plan t₁)
    (hrepeats : RepeatsArchive output t₁ plan.entries) : Repeats a loaded output t₁ := by
  obtain ⟨hmakes, hwrites⟩ := ends_transform_iff.1 h
  have hagrees := agrees_over hgiven output
  have hsettled := hmakes.settled fun collected _ => Plan.fits_of_closed hclosed collected
  have hlook : t₁.look a.output = .file (.archive (plan.entries.map Entry.toItem)) :=
    Output.look_of_writes_archive harchive hwrites
  obtain ⟨plan', hmakes', hcount, hperm⟩ := Plan.exists_makes_archive (p := preferences a)
    (s := settings (a.over output) loaded) harchive (hagrees.isEnabled_eq.trans hclosed)
    (fun e he => (hsettled e he).agrees hagrees) hrepeats.names
  obtain ⟨t₀, hroom, hstore⟩ := hrepeats.room
  obtain ⟨t', hstored⟩ : ∃ t', t₀.store output (.archive (plan'.entries.map Entry.toItem)) =
      (true, t') := FileTree.store_eq_true_of_store hstore
  have hwrites' := (Output.writes_archive_iff harchive').2
    ⟨((Output.writes_archive_iff harchive).1 hwrites).1.of_perm hperm, t₀, hroom, hstored⟩
  intro log'
  refine ⟨plan', t', ends_transform_iff.2 ⟨?_, hwrites'⟩, hcount, fun item => ?_⟩
  · change Plan.Makes (preferences a) _ a.output (t₁.look a.output) plan'
    rw [hlook]
    exact hmakes'
  · rw [hlook, Output.look_of_store hstored, Snapshot.items_archive, Snapshot.items_archive]
    exact hperm.mem_iff

theorem repeats_of_directory (hgiven : IdentifierGiven a loaded)
    (hdirectory : isArchivePath a.output = false) (hdirectory' : isArchivePath output = false)
    (h : Transforms a loaded log t plan t₁)
    (hfits : ∀ collected, Entry.collect a.input (t.look a.input) = .ok collected →
      Plan.Fits (preferences a) (settings a loaded) collected)
    (hrepeats : RepeatsDirectory a.output output t t₁ plan.entries) :
    Repeats a loaded output t₁ := by
  obtain ⟨hmakes, hwrites⟩ := ends_transform_iff.1 h
  have hagrees := agrees_over hgiven output
  obtain ⟨t₀, l, hoffers⟩ := hrepeats.first
  obtain ⟨t₀', l', hoffers'⟩ := hrepeats.second
  have hholds := Output.holds_of_writes hdirectory hrepeats.wellFormed hoffers hwrites
  have hsettled := hholds.settled
    (fun e he => (hmakes.settled hfits e he).agrees hagrees) hrepeats.named
  obtain ⟨collected, -, processed, -, assets, hassets, hplan⟩ := hmakes
  obtain ⟨plan', hmakes', hentries, hcount⟩ :=
    Plan.exists_makes_of_settled hholds.collect hsettled (hagrees.besides_iff.2 hassets)
  have hagain : Output.Holds t₁ a.output l (processed.map (·.entry) ++ assets) := by
    rw [hplan] at hholds
    exact hholds
  obtain ⟨t', hwrites', hsame⟩ := hholds.exists_writes_again hdirectory' hoffers' hrepeats.short
    (hagain.content?_of_collected hassets) fun _ _ => hagain.exists_collected assets
  rw [← hentries] at hwrites'
  intro log'
  exact ⟨plan', t', ends_transform_iff.2 ⟨hmakes', hwrites'⟩, hcount, hsame⟩

/-- With a given identifier a run over the output of another one into an output of the same kind
repeats it for directories, and for archives with the gate closed. For archives with the gate open
it fails. -/
theorem transforms_again (hgiven : IdentifierGiven a loaded)
    (hkind : isArchivePath output = isArchivePath a.output)
    (h : Transforms a loaded log t plan t₁) :
    (isArchivePath a.output = false →
      (∀ collected, Entry.collect a.input (t.look a.input) = .ok collected →
        Plan.Fits (preferences a) (settings a loaded) collected) →
      RepeatsDirectory a.output output t t₁ plan.entries → Repeats a loaded output t₁) ∧
    (isArchivePath a.output = true → (settings a loaded).isEnabled = false →
      RepeatsArchive output t₁ plan.entries → Repeats a loaded output t₁) ∧
    (isArchivePath a.output = true → (settings a loaded).isEnabled = true →
      ∀ log' plan' t', ¬ Transforms (a.over output) loaded log' t₁ plan' t') := by
  refine ⟨fun hdirectory hfits hrepeats => ?_, fun harchive hclosed hrepeats => ?_,
    fun harchive hopen => ?_⟩
  · exact repeats_of_directory hgiven hdirectory (hkind.trans hdirectory) h hfits hrepeats
  · exact repeats_of_archive hgiven harchive (hkind.trans harchive) hclosed h hrepeats
  · exact not_transforms_of_archive hgiven harchive (hkind.trans harchive) hopen h

def sampleArguments (input output : String) : Arguments :=
  ⟨input, output, none, some "fabric", none, some "acme", none, false, false⟩

/-- A marked class next to no other file. -/
def sampleClassTree : FileTree := ⟨[(["in.class"], .file (.raw ClassLayout.sample.encode))]⟩

def sampleRun (a : Arguments) (loaded : Properties) (t : FileTree) :
    (Except RunError Plan × Array LogRecord) × FileTree :=
  ((transform (preferences a) (settings a loaded) a.input a.output (t.look a.input) :
    Running (StateM FileTree) Plan).run.run #[]).run t

/-- The paths that a run with some arguments hands over, if it succeeds. -/
def samplePaths (a : Arguments) (loaded : Properties) (t : FileTree) : Option (List String) :=
  (sampleRun a loaded t).1.1.toOption.map fun plan => plan.entries.map (·.path)

theorem exists_transforms {a : Arguments} {loaded : Properties} {t : FileTree}
    {paths : List String} (h : samplePaths a loaded t = some paths) :
    ∃ plan, Transforms a loaded #[] t plan (sampleRun a loaded t).2 ∧
      plan.entries.map (·.path) = paths := by
  match hrun : sampleRun a loaded t with
  | ((.ok plan, log), t') =>
    rw [samplePaths, hrun] at h
    exact ⟨plan, ⟨log, hrun⟩, Option.some.inj h⟩
  | ((.error e, log), t') =>
    rw [samplePaths, hrun] at h
    cases h

theorem wellFormed_sampleClassTree : sampleClassTree.WellFormed where
  nodup := by decide
  ne_nil := by decide
  names := by
    have hname : FileTree.IsNodeName "in.class" :=
      ⟨⟨by decide, by decide, by decide⟩, by decide, by decide⟩
    simpa [sampleClassTree] using hname
  closed := by decide

theorem fits_sampleClassTree (collected : List Entry)
    (h : Entry.collect "in.class" (sampleClassTree.look "in.class") = .ok collected) :
    Plan.Fits (preferences (sampleArguments "in.class" "out"))
      (settings (sampleArguments "in.class" "out") .empty) collected := by
  have hsample : Entry.collect "in.class" (sampleClassTree.look "in.class") =
      .ok [⟨"a/B.class", .raw ClassLayout.sample.encode⟩] := by decide +kernel
  rw [hsample] at h
  cases h
  refine ⟨?_, fun _ => by decide, fun _ platform hplatform => ?_⟩
  · rw [List.forall_mem_singleton]
    intro _ c hread _
    have hsame : c = .sample := Except.ok.inj (hread.symm.trans ClassFile.read_sample)
    rw [hsame]
    decide +kernel
  · cases hplatform
    decide

theorem sampleRun_sampleClassTree :
    let a := sampleArguments "in.class" "out"
    let t₁ := (sampleRun a .empty sampleClassTree).2
    samplePaths a .empty sampleClassTree = some ["a/B.class", "acme/PlatformMethods.class"] ∧
      (t₁.createDirectories "again").1 = true ∧
      (t₁.createDirectories "again").2.at? "again" = some (["again"], .directory) ∧
      ∀ entry ∈ (t₁.createDirectories "again").2.nodes,
        ["again"] <+: entry.1 → entry.1 = ["again"] := by
  decide +kernel

theorem repeatsDirectory_sample {entries : List Entry}
    (h : entries.map (·.path) = ["a/B.class", "acme/PlatformMethods.class"]) :
    RepeatsDirectory "out" "again" sampleClassTree
      (sampleRun (sampleArguments "in.class" "out") .empty sampleClassTree).2 entries := by
  obtain ⟨-, hcreated, hlead, hnodes⟩ := sampleRun_sampleClassTree
  have hpath : ∀ e ∈ entries,
      e.path = "a/B.class" ∨ e.path = "acme/PlatformMethods.class" := by
    intro e he
    have hmem := List.mem_map_of_mem (f := (·.path)) he
    rw [h] at hmem
    simpa using hmem
  refine ⟨wellFormed_sampleClassTree, ⟨_, ["out"], .of_nodes ?_ ?_ ?_⟩,
    ⟨_, ["again"], .of_nodes hcreated hlead hnodes⟩, fun e he => ?_, fun e he names hnames => ?_⟩
  · decide +kernel
  · decide +kernel
  · decide +kernel
  · rcases hpath e he with hpath | hpath
    · exact ⟨["a"], "B.class", by rw [hpath]; decide, by decide⟩
    · exact ⟨["acme"], "PlatformMethods.class", by rw [hpath]; decide, by decide⟩
  · rcases hpath e he with hpath | hpath
    · have hsample : names? "a/B.class" = some ["a", "B.class"] := by decide
      rw [hpath, hsample] at hnames
      cases hnames
      decide
    · have hsample : names? "acme/PlatformMethods.class" =
          some ["acme", "PlatformMethods.class"] := by decide
      rw [hpath, hsample] at hnames
      cases hnames
      decide

def closingProperties : Properties := ⟨[(Key.injectables, "false")]⟩

theorem sampleRun_sampleTree :
    let a := sampleArguments "in.jar" "out.jar"
    samplePaths a closingProperties sampleTree = some ["a/B.class"] ∧
      ((sampleRun a closingProperties sampleTree).2.store "again.jar" (.archive [])).1 = true := by
  decide +kernel

theorem repeatsArchive_sample {entries : List Entry} (h : entries.map (·.path) = ["a/B.class"]) :
    RepeatsArchive "again.jar"
      (sampleRun (sampleArguments "in.jar" "out.jar") closingProperties sampleTree).2 entries := by
  refine ⟨fun e he => ?_, _, rfl, sampleRun_sampleTree.2⟩
  have hmem := List.mem_map_of_mem (f := (·.path)) he
  rw [h, List.mem_singleton] at hmem
  rw [hmem]
  decide

/-- A class file is rewritten into a directory, and this one into another with the same files. With
the gate closed an archive is taken into another one, and this into a third. With the gate open a
run over an archive that another run has written does not succeed. -/
theorem transforms_again_sample :
    (∃ plan t₁, Transforms (sampleArguments "in.class" "out") .empty #[] sampleClassTree plan t₁ ∧
      Repeats (sampleArguments "in.class" "out") .empty "again" t₁) ∧
    (∃ plan t₁, Transforms (sampleArguments "in.jar" "out.jar") closingProperties #[] sampleTree
        plan t₁ ∧
      Repeats (sampleArguments "in.jar" "out.jar") closingProperties "again.jar" t₁) ∧
    ∃ plan t₁, Transforms (sampleArguments "in.jar" "out.jar") .empty #[] sampleTree plan t₁ ∧
      ∀ log' plan' t', ¬ Transforms ((sampleArguments "in.jar" "out.jar").over "again.jar") .empty
        log' t₁ plan' t' := by
  refine ⟨?_, ?_, ?_⟩
  · obtain ⟨plan, h, hpaths⟩ := exists_transforms sampleRun_sampleClassTree.1
    exact ⟨plan, _, h, (transforms_again (by decide) (by decide) h).1 (by decide)
      fits_sampleClassTree (repeatsDirectory_sample hpaths)⟩
  · obtain ⟨plan, h, hpaths⟩ := exists_transforms sampleRun_sampleTree.1
    exact ⟨plan, _, h, (transforms_again (by decide) (by decide) h).2.1 (by decide) (by decide)
      (repeatsArchive_sample hpaths)⟩
  · have hpaths : samplePaths (sampleArguments "in.jar" "out.jar") .empty sampleTree =
        some ["a/B.class", "acme/PlatformMethods.class"] := by decide +kernel
    obtain ⟨plan, h, -⟩ := exists_transforms hpaths
    exact ⟨plan, _, h, (transforms_again (by decide) (by decide) h).2.2 (by decide) (by decide)⟩

/-- An archive without entries is taken into an archive with the helper class, and the run over this
one fails because the helper class comes twice. -/
theorem perform_perform_archive :
    let t : FileTree := ⟨[(["in.jar"], .file (.archive []))]⟩
    let a := sampleArguments "in.jar" "out.jar"
    let first := (perform a [] : StateM FileTree _).run t
    let second := (perform (a.over "again.jar") [] : StateM FileTree _).run first.2
    first.1.1 = .ok ⟨0, 0, 0, none⟩ ∧ second.1.1 =
      .error (Output.entryError "again.jar" "acme/PlatformMethods.class" .archive) := by
  decide +kernel

end Run

end PlatformLink
