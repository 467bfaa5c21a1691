import PlatformLink.Proofs.DirectoryCreation
import PlatformLink.Proofs.PlanSpec

/-! # Output into a directory

A directory that entries are written into holds, under every name, the last of them
(`Output.holds_of_writes`). They can be written when no name of theirs leads through another one
(`Output.exists_writes`). Outside of the directory no file changes (`Output.frame_of_writes`).
-/

namespace PlatformLink
set_option autoImplicit false

open FileTree (IsNodeName IsPath)
open PlatformLink.Path (IsName)

namespace Output

variable {t t' : FileTree} {l : Location} {root : String} {e : Entry} {entries : List Entry}

/-! ## One entry -/

/-- An entry is written into a directory, which leaves the tree `t'`. -/
def Adds (root : String) (e : Entry) (t t' : FileTree) : Prop :=
  (addToDirectory root e : StateM FileTree Written).run t = (.ok (), t')

theorem adds_iff : Adds root e t t' ↔ ∃ names t₁, names? e.path = some names ∧
    t.createDirectories ((Path.parent? (names.foldl Path.join root)).getD "") = (true, t₁) ∧
      t₁.store (names.foldl Path.join root) e.content = (true, t') := by
  unfold Adds addToDirectory
  cases names? e.path with
  | none =>
    constructor
    · intro h
      cases h
    · rintro ⟨names, -, ⟨⟩, -⟩
  | some names =>
    dsimp only
    rw [Run.writes_guarded_iff]
    simp only [Run.writes_guarded_iff]
    constructor
    · rintro ⟨t₁, hcreate, t₂, hstore, ⟨⟩⟩
      exact ⟨names, t₁, rfl, hcreate, hstore⟩
    · rintro ⟨_, t₁, ⟨⟩, hcreate, hstore⟩
      exact ⟨t₁, hcreate, t', hstore, rfl⟩

/-- Names joined to the path of a directory are the last texts of a path, and those before them
lead to the directory. -/
theorem exists_pieces_eq_append {path : String} {names : List String}
    (htrunk : t.descend [] (Path.trunk path) = .ok l) (hfind : t.find? l = some .directory)
    (hnames : ∀ name ∈ names, IsName name) :
    ∃ base, Path.pieces (names.foldl Path.join path) = base ++ names ∧
      t.descend [] base = .ok l := by
  by_cases hne : names = []
  · obtain ⟨blanks, hpieces, hblanks⟩ := Path.exists_pieces_eq_trunk_append path
    refine ⟨Path.pieces path, by rw [hne, List.append_nil, List.foldl_nil], ?_⟩
    rw [hpieces, FileTree.descend_append_eq_ok_iff]
    refine ⟨l, htrunk, FileTree.descend_idle hfind fun blank hblank => ?_⟩
    rw [hblanks blank hblank]
    rfl
  · exact ⟨Path.trunk path, Path.pieces_foldl_join path hne hnames, htrunk⟩

/-- What is placed below a directory comes to its names there. -/
theorem eq_append_of_places {path : String} {names : List String}
    (htrunk : t.descend [] (Path.trunk path) = .ok l) (hfind : t.find? l = some .directory)
    (hnames : ∀ name ∈ names, IsName name) {l' : Location}
    (hplaces : t.Places (Path.pieces (names.foldl Path.join path)) l') : l' = l ++ names := by
  obtain ⟨base, hpieces, hbase⟩ := exists_pieces_eq_append htrunk hfind hnames
  have hdescend := hplaces.descend
  rw [hpieces, FileTree.descend_append, hbase] at hdescend
  exact FileTree.eq_append_of_descend hnames hdescend

/-- What comes of an entry in a directory: one file more, or one with other content. -/
structure Added (root : String) (l : Location) (names : List String) (e : Entry) (t t' : FileTree) :
    Prop where
  wellFormed : t'.WellFormed
  leadsTo : t'.LeadsTo root l
  content? : ∀ l', t'.content? l' = if l' = l ++ names then some e.content else t.content? l'

theorem Adds.added (h : Adds root e t t') (hwell : t.WellFormed) (hlead : t.LeadsTo root l) :
    ∃ names, names? e.path = some names ∧ Added root l names e t t' := by
  obtain ⟨names, t₁, hnames, hcreate, hstore⟩ := adds_iff.1 h
  have hgrows := FileTree.grows_createDirectories hcreate
  have hwell₁ := hwell.createDirectories hcreate
  have hlead₁ := hgrows.leadsTo hlead
  have hwell' := hwell₁.store hstore
  obtain ⟨-, l', hplaces, hfind, rfl⟩ := FileTree.store_eq_true_iff.1 hstore
  obtain rfl := eq_append_of_places hlead₁.descend_trunk hlead₁.find?
    (Path.names?_eq_some hnames).2 hplaces
  refine ⟨names, hnames, hwell', hlead₁.mono fun _ => t₁.directory_put hplaces.ne_nil hfind,
    fun l₀ => ?_⟩
  rw [FileTree.content?_put t₁ hplaces.ne_nil, hgrows.content?]

/-- An entry can be written unless a file stands on the way to it or a directory in its place, and
makes no other directories than those on the way. -/
theorem exists_adds {names : List String} {name : String} (hlead : t.LeadsTo root l)
    (hwell : t.WellFormed) (hentry : names? e.path = some (names ++ [name]))
    (hnames : ∀ name ∈ names, IsNodeName name) (hname : IsNodeName name)
    (hshort : (Path.join (names.foldl Path.join root) name).utf8ByteSize ≤ FileTree.maxPath)
    (hfile : ∀ front content, front <+: names → t.find? (l ++ front) ≠ some (.file content))
    (hdirectory : t.find? (l ++ (names ++ [name])) ≠ some .directory) :
    ∃ t', Adds root e t t' ∧ ∀ l', t'.find? l' = some .directory →
      t.find? l' = some .directory ∨ ∃ front, front <+: names ∧ l' = l ++ front := by
  have hle := FileTree.utf8ByteSize_le_join (names.foldl Path.join root) name
  obtain ⟨t₁, hcreate, hparent, hframe⟩ := hlead.exists_createParent hwell hnames hname hshort hfile
  have hgrows := FileTree.grows_createDirectories hcreate
  have hwell₁ := hwell.createDirectories hcreate
  have hinner : t₁.LeadsTo (names.foldl Path.join root) (l ++ names) :=
    (hgrows.leadsTo hlead).foldl_join hwell₁ (Nat.le_trans hle hshort) hparent
  have hplaces : t₁.Places (Path.pieces (Path.join (names.foldl Path.join root) name))
      (l ++ names ++ [name]) :=
    ⟨_, name, l ++ names, Path.pieces_join _ hname.toIsName, hinner.descend_trunk, hparent, hname,
      rfl⟩
  have hnot : t₁.find? (l ++ names ++ [name]) ≠ some .directory := by
    rw [List.append_assoc]
    intro hfind
    rcases hframe _ hfind with hfind | ⟨front, hfront, heq⟩
    · exact hdirectory hfind
    · rw [List.append_cancel_left_eq] at heq
      have hlength := hfront.length_le
      rw [← heq, List.length_append, List.length_singleton] at hlength
      omega
  have hstore : t₁.store (Path.join (names.foldl Path.join root) name) e.content =
      (true, t₁.put (l ++ names ++ [name]) (.file e.content)) :=
    FileTree.store_eq_true_iff.2 ⟨hinner.isPath.join hname hshort, _, hplaces, hnot, rfl⟩
  have hjoin : (names ++ [name]).foldl Path.join root =
      Path.join (names.foldl Path.join root) name := by
    rw [List.foldl_append, List.foldl_cons, List.foldl_nil]
  rw [← hjoin] at hcreate hstore
  refine ⟨_, adds_iff.2 ⟨names ++ [name], t₁, hentry, hcreate, hstore⟩, fun l' hl' => hframe l' ?_⟩
  rw [FileTree.find?_put t₁ hplaces.ne_nil] at hl'
  split at hl'
  · cases hl'
  · exact hl'

/-! ## All entries -/

/-- What the last of some entries under some names holds, or else what was there before. -/
def overlay (entries : List Entry) (names : List String) (before : Option Content) :
    Option Content :=
  entries.foldl (fun content e => if names? e.path = some names then some e.content else content)
    before

theorem overlay_append (front back : List Entry) (names : List String) (before : Option Content) :
    overlay (front ++ back) names before = overlay back names (overlay front names before) :=
  List.foldl_append

theorem overlay_of_forall_ne {names : List String} {before : Option Content}
    (h : ∀ e ∈ entries, names? e.path ≠ some names) : overlay entries names before = before := by
  induction entries generalizing before with
  | nil => rfl
  | cons e entries ih =>
    rw [List.forall_mem_cons] at h
    rw [overlay, List.foldl_cons, if_neg h.1]
    exact ih h.2

/-- Where all entries under some names have one content, the directory has it. -/
theorem overlay_of_forall_eq {names : List String} {before : Option Content} {content : Content}
    (h : ∀ e ∈ entries, names? e.path = some names → e.content = content)
    (hexists : before = some content ∨ ∃ e ∈ entries, names? e.path = some names) :
    overlay entries names before = some content := by
  induction entries generalizing before with
  | nil => simpa [overlay] using hexists
  | cons e entries ih =>
    rw [List.forall_mem_cons] at h
    rw [overlay, List.foldl_cons]
    by_cases hnames : names? e.path = some names
    · rw [if_pos hnames, h.1 hnames]
      exact ih h.2 (.inl rfl)
    · rw [if_neg hnames]
      refine ih h.2 (hexists.imp_right ?_)
      rintro ⟨e', he', hnames'⟩
      rcases List.mem_cons.1 he' with rfl | he'
      · exact absurd hnames' hnames
      · exact ⟨e', he', hnames'⟩

theorem exists_of_overlay {names : List String} {content : Content}
    (h : overlay entries names none = some content) :
    ∃ e ∈ entries, names? e.path = some names ∧ e.content = content := by
  induction entries using List.reverseRecOn with
  | nil => cases h
  | append_singleton entries e ih =>
    rw [overlay_append, overlay, List.foldl_cons, List.foldl_nil] at h
    split at h
    · exact ⟨e, by simp, ‹_›, Option.some.inj h⟩
    · obtain ⟨e', he', hnames⟩ := ih h
      exact ⟨e', List.mem_append_left _ he', hnames⟩

/-- Some entries are written into a directory, which leaves the tree `t'`. -/
def AddsAll (root : String) (entries : List Entry) (t t' : FileTree) : Prop :=
  (addAll root entries : StateM FileTree Written).run t = (.ok (), t')

theorem addsAll_nil : AddsAll root [] t t' ↔ t' = t := by
  constructor
  · intro h
    cases h
    rfl
  · rintro rfl
    rfl

theorem addsAll_cons :
    AddsAll root (e :: entries) t t' ↔ ∃ t₁, Adds root e t t₁ ∧ AddsAll root entries t₁ t' := by
  unfold AddsAll Adds
  rw [addAll, StateT.run_bind]
  match (addToDirectory root e : StateM FileTree Written).run t with
  | (.ok (), t₁) =>
    constructor
    · intro h
      exact ⟨t₁, rfl, h⟩
    · rintro ⟨t₂, ⟨⟩, h⟩
      exact h
  | (.error e, t₁) =>
    constructor
    · intro h
      cases h
    · rintro ⟨t₂, ⟨⟩, -⟩

/-- After some entries a directory holds under every name the last of them, and what it held before
where there is none. -/
theorem contents_of_addsAll (h : AddsAll root entries t t') (hwell : t.WellFormed)
    (hlead : t.LeadsTo root l) :
    t'.WellFormed ∧ t'.LeadsTo root l ∧ (∀ e ∈ entries, (names? e.path).isSome) ∧
      ∀ names, t'.content? (l ++ names) = overlay entries names (t.content? (l ++ names)) := by
  induction entries generalizing t with
  | nil =>
    obtain rfl := addsAll_nil.1 h
    exact ⟨hwell, hlead, by simp, fun names => rfl⟩
  | cons e entries ih =>
    obtain ⟨t₁, hadds, hrest⟩ := addsAll_cons.1 h
    obtain ⟨names, hnames, hadded⟩ := hadds.added hwell hlead
    obtain ⟨hwell', hlead', hsome, hcontent⟩ := ih hrest hadded.wellFormed hadded.leadsTo
    refine ⟨hwell', hlead', ?_, fun names' => ?_⟩
    · rw [List.forall_mem_cons]
      exact ⟨by rw [hnames]; rfl, hsome⟩
    · rw [hcontent, hadded.content?, overlay, overlay, List.foldl_cons, hnames]
      simp only [List.append_cancel_left_eq, Option.some.injEq, eq_comm]

/-- Entries that are written into a directory leave all files alone that do not lie below it. -/
theorem frame_of_addsAll (h : AddsAll root entries t t') (hwell : t.WellFormed)
    (hlead : t.LeadsTo root l) :
    t'.LeadsTo root l ∧ ∀ l', ¬ l <+: l' → t'.content? l' = t.content? l' := by
  induction entries generalizing t with
  | nil =>
    obtain rfl := addsAll_nil.1 h
    exact ⟨hlead, fun _ _ => rfl⟩
  | cons e entries ih =>
    obtain ⟨t₁, hadds, hrest⟩ := addsAll_cons.1 h
    obtain ⟨names, -, hadded⟩ := hadds.added hwell hlead
    obtain ⟨hlead', hframe⟩ := ih hrest hadded.wellFormed hadded.leadsTo
    refine ⟨hlead', fun l' hl' => ?_⟩
    rw [hframe l' hl', hadded.content?, if_neg]
    rintro rfl
    exact hl' (List.prefix_append l names)

/-- Below a location a tree has no other files than those whose names are in `S`, and no other
directories than those on the way to them. -/
structure Within (S : List String → Prop) (l : Location) (t : FileTree) : Prop where
  file : ∀ names content, names ≠ [] → t.find? (l ++ names) = some (.file content) → S names
  directory : ∀ names, names ≠ [] → t.find? (l ++ names) = some .directory →
    ∃ more, more ≠ [] ∧ S (names ++ more)

/-- Names of files that can all lie below the directory `root`, none on the way to another one. -/
structure Compatible (root : String) (S : List String → Prop) : Prop where
  ne_nil : ∀ names, S names → names ≠ []
  names : ∀ names, S names → ∀ name ∈ names, IsNodeName name
  short : ∀ names, S names → (names.foldl Path.join root).utf8ByteSize ≤ FileTree.maxPath
  apart : ∀ names more, S names → S (names ++ more) → more = []

theorem exists_adds_within {S : List String → Prop} {names : List String}
    (hcompatible : Compatible root S) (hlead : t.LeadsTo root l) (hwell : t.WellFormed)
    (hwithin : Within S l t) (hentry : names? e.path = some names) (hS : S names) :
    ∃ t', Adds root e t t' ∧ Within S l t' := by
  rcases List.eq_nil_or_concat names with rfl | ⟨names, name, rfl⟩
  · exact absurd rfl (hcompatible.ne_nil _ hS)
  rw [List.concat_eq_append] at hentry hS
  have hnames := hcompatible.names _ hS
  have hshort := hcompatible.short _ hS
  rw [List.forall_mem_append, List.forall_mem_singleton] at hnames
  rw [List.foldl_append, List.foldl_cons, List.foldl_nil] at hshort
  have hfile : ∀ front content, front <+: names → t.find? (l ++ front) ≠ some (.file content) := by
    rintro front content ⟨back, rfl⟩ hfind
    by_cases hfront : front = []
    · rw [hfront, List.append_nil, hlead.find?] at hfind
      cases hfind
    · rw [List.append_assoc] at hS
      have := hcompatible.apart _ _ (hwithin.file front content hfront hfind) hS
      simp at this
  have hdirectory : t.find? (l ++ (names ++ [name])) ≠ some .directory := by
    intro hfind
    obtain ⟨more, hmore, hS'⟩ := hwithin.directory _ (by simp) hfind
    exact hmore (hcompatible.apart _ _ hS hS')
  obtain ⟨t', hadds, hframe⟩ :=
    exists_adds hlead hwell hentry hnames.1 hnames.2 hshort hfile hdirectory
  obtain ⟨names', hnames', hadded⟩ := hadds.added hwell hlead
  rw [hentry, Option.some.injEq] at hnames'
  subst hnames'
  refine ⟨t', hadds, fun names' content hne hfind => ?_, fun names' hne hfind => ?_⟩
  · rw [← FileTree.content?_eq_some_iff, hadded.content?] at hfind
    split at hfind
    · rename_i heq
      rw [List.append_cancel_left_eq] at heq
      rwa [heq]
    · exact hwithin.file names' content hne (FileTree.content?_eq_some_iff.1 hfind)
  · rcases hframe _ hfind with hfind | ⟨front, ⟨back, rfl⟩, heq⟩
    · exact hwithin.directory names' hne hfind
    · rw [List.append_cancel_left_eq] at heq
      subst heq
      rw [List.append_assoc] at hS
      exact ⟨_, by simp, hS⟩

/-- Entries with compatible names can be written into a directory where nothing else stands. -/
theorem exists_addsAll {S : List String → Prop} (hcompatible : Compatible root S)
    (hlead : t.LeadsTo root l) (hwell : t.WellFormed) (hwithin : Within S l t)
    (hentries : ∀ e ∈ entries, ∃ names, names? e.path = some names ∧ S names) :
    ∃ t', AddsAll root entries t t' := by
  induction entries generalizing t with
  | nil => exact ⟨t, addsAll_nil.2 rfl⟩
  | cons e entries ih =>
    rw [List.forall_mem_cons] at hentries
    obtain ⟨⟨names, hnames, hS⟩, hrest⟩ := hentries
    obtain ⟨t₁, hadds, hwithin₁⟩ := exists_adds_within hcompatible hlead hwell hwithin hnames hS
    obtain ⟨_, -, hadded⟩ := hadds.added hwell hlead
    obtain ⟨t', haddsAll⟩ := ih hadded.leadsTo hadded.wellFormed hwithin₁ hrest
    exact ⟨t', addsAll_cons.2 ⟨t₁, hadds, haddsAll⟩⟩

/-! ## The whole output -/

/-- An empty directory can be had at a path. -/
structure Offers (t : FileTree) (root : String) (t₀ : FileTree) (l : Location) : Prop where
  created : t.createDirectories root = (true, t₀)
  leadsTo : t₀.LeadsTo root l
  empty : ∀ names, names ≠ [] → t₀.find? (l ++ names) = none

theorem Offers.of_nodes (hcreated : (t.createDirectories root).1 = true)
    (hlead : (t.createDirectories root).2.at? root = some (l, .directory))
    (hnodes : ∀ entry ∈ (t.createDirectories root).2.nodes, l <+: entry.1 → entry.1 = l) :
    Offers t root (t.createDirectories root).2 l where
  created := Prod.ext hcreated rfl
  leadsTo := hlead
  empty := by
    intro names hne
    cases hfind : (t.createDirectories root).2.find? (l ++ names) with
    | none => rfl
    | some n =>
      have hmem := FileTree.mem_of_find? (by simp [hne]) hfind
      have heq := hnodes _ hmem (List.prefix_append l names)
      exact absurd (List.append_right_eq_self.1 heq) hne

theorem writes_directory_iff (hdirectory : isArchivePath root = false) :
    Run.Writes root entries t t' ↔
      ∃ t₀, t.createDirectories root = (true, t₀) ∧ AddsAll root entries t₀ t' := by
  unfold Run.Writes AddsAll
  rw [write, hdirectory, if_neg (by simp), toDirectory]
  exact Run.writes_guarded_iff

/-- An output directory that does not have the empty path is the only place where files change. -/
theorem frame_of_writes (hdirectory : isArchivePath root = false) (hne : root ≠ "")
    (hwell : t.WellFormed) (h : Run.Writes root entries t t') :
    ∃ l, t'.LeadsTo root l ∧ ∀ l', ¬ l <+: l' → t'.content? l' = t.content? l' := by
  obtain ⟨t₀, hcreated, haddsAll⟩ := (writes_directory_iff hdirectory).1 h
  obtain ⟨l, hlead⟩ := FileTree.exists_leadsTo_of_createDirectories hne hcreated
  obtain ⟨hlead', hframe⟩ := frame_of_addsAll haddsAll (hwell.createDirectories hcreated) hlead
  refine ⟨l, hlead', fun l' hl' => ?_⟩
  rw [hframe l' hl', (FileTree.grows_createDirectories hcreated).content?]

theorem names?_isSome_of_addsAll (h : AddsAll root entries t t') :
    ∀ e ∈ entries, (names? e.path).isSome := by
  induction entries generalizing t with
  | nil => simp
  | cons e entries ih =>
    obtain ⟨t₁, hadds, hrest⟩ := addsAll_cons.1 h
    obtain ⟨names, -, hnames, -⟩ := adds_iff.1 hadds
    rw [List.forall_mem_cons]
    exact ⟨by rw [hnames]; rfl, ih hrest⟩

/-- The directory at the path `root` holds the last entry under every name, and nothing else. -/
structure Holds (t : FileTree) (root : String) (l : Location) (entries : List Entry) : Prop where
  wellFormed : t.WellFormed
  leadsTo : t.LeadsTo root l
  named : ∀ e ∈ entries, (names? e.path).isSome
  content? : ∀ names, t.content? (l ++ names) = overlay entries names none

/-- What is written into an empty directory is what it holds afterwards. -/
theorem holds_of_writes {t₀ : FileTree} (hdirectory : isArchivePath root = false)
    (hwell : t.WellFormed) (hoffers : Offers t root t₀ l) (h : Run.Writes root entries t t') :
    Holds t' root l entries := by
  obtain ⟨t₁, hcreated, haddsAll⟩ := (writes_directory_iff hdirectory).1 h
  rw [hoffers.created] at hcreated
  cases hcreated
  have hwell₀ := hwell.createDirectories hoffers.created
  have hempty : ∀ names, t₀.content? (l ++ names) = none := by
    intro names
    by_cases hne : names = []
    · rw [hne, List.append_nil, FileTree.content?, hoffers.leadsTo.find?]
    · rw [FileTree.content?, hoffers.empty names hne]
  obtain ⟨hwell', hlead, hsome, hcontent⟩ := contents_of_addsAll haddsAll hwell₀ hoffers.leadsTo
  refine ⟨hwell', hlead, hsome, fun names => ?_⟩
  rw [hcontent, hempty]

theorem exists_writes {S : List String → Prop} {t₀ : FileTree}
    (hdirectory : isArchivePath root = false) (hwell : t.WellFormed) (hoffers : Offers t root t₀ l)
    (hcompatible : Compatible root S)
    (hentries : ∀ e ∈ entries, ∃ names, names? e.path = some names ∧ S names) :
    ∃ t', Run.Writes root entries t t' := by
  have hwell₀ := hwell.createDirectories hoffers.created
  have hwithin : Within S l t₀ := by
    constructor <;> intro names <;> simp +contextual [hoffers.empty]
  obtain ⟨t', haddsAll⟩ :=
    exists_addsAll hcompatible hoffers.leadsTo hwell₀ hwithin hentries
  exact ⟨t', (writes_directory_iff hdirectory).2 ⟨t₀, hoffers.created, haddsAll⟩⟩

theorem look_of_leadsTo (h : t.LeadsTo root l) : t.look root = .directory (t.filesBelow l) := by
  rw [FileTree.look, h]

namespace Holds

variable {names : List String} {content : Content}

theorem collect (h : Holds t root l entries) :
    Entry.collect root (t.look root) = .ok (Entry.ofDirectory (t.filesBelow l)) := by
  rw [look_of_leadsTo h.leadsTo, Entry.collect]

theorem mem_collected_iff (h : Holds t root l entries) :
    e ∈ Entry.ofDirectory (t.filesBelow l) ↔
      ∃ names content, t.content? (l ++ names) = some content ∧
        Entry.ofFile (names, content) = e := by
  simp only [Entry.ofDirectory, List.mem_map, List.mem_mergeSort, Prod.exists,
    h.wellFormed.mem_filesBelow_iff]
  rfl

theorem isNodeName (h : Holds t root l entries)
    (hcontent : t.content? (l ++ names) = some content) :
    names ≠ [] ∧ ∀ name ∈ names, IsNodeName name := by
  constructor
  · rintro rfl
    rw [List.append_nil, FileTree.content?, h.leadsTo.find?] at hcontent
    cases hcontent
  · have hall := h.wellFormed.isNodeName (FileTree.content?_eq_some_iff.1 hcontent)
    exact fun name hname => hall name (List.mem_append_right l hname)

theorem names?_ofFile (h : Holds t root l entries)
    (hcontent : t.content? (l ++ names) = some content) :
    names? (Entry.ofFile (names, content)).path = some names := by
  obtain ⟨hne, hnames⟩ := h.isNodeName hcontent
  exact Path.names?_intercalate hne fun name hname => (hnames name hname).toIsName

/-- The files of an output directory can all lie below another one as well. -/
theorem compatible (h : Holds t root l entries) {output : String}
    (hshort : ∀ e ∈ entries, ∀ names, names? e.path = some names →
      (names.foldl Path.join output).utf8ByteSize ≤ FileTree.maxPath) :
    Compatible output fun names => ∃ content, t.content? (l ++ names) = some content where
  ne_nil := fun names ⟨_, hcontent⟩ => (h.isNodeName hcontent).1
  names := fun names ⟨_, hcontent⟩ => (h.isNodeName hcontent).2
  short := by
    intro names ⟨content, hcontent⟩
    rw [h.content?] at hcontent
    obtain ⟨e, he, hnames, -⟩ := exists_of_overlay hcontent
    exact hshort e he names hnames
  apart := by
    intro names more ⟨content, hcontent⟩ ⟨content', hcontent'⟩
    by_contra hmore
    rw [FileTree.content?_eq_some_iff] at hcontent hcontent'
    rw [← List.append_assoc] at hcontent'
    rw [h.wellFormed.directory_of_append _ _ hmore hcontent'] at hcontent
    cases hcontent

end Holds

end Output

end PlatformLink
