import PlatformLink.Proofs.RunTwice

/-! # Where the entries of an output lie

The path of an entry stays below the output when it starts there and never goes up
(`Path.StaysBelow`). A directory refuses all other paths, and then changes no file outside of it; an
archive asks for nothing, so that its entries stay below just when the names in the input and the
identifier do: `Run.paths_stay_below`.
-/

namespace PlatformLink
set_option autoImplicit false

/-! ## Paths -/

namespace Path

/-- A path that starts at the place it is used from and never goes up. -/
structure StaysBelow (path : String) : Prop where
  relative : path.toList.head? ≠ some '/'
  notUp : ".." ∉ pieces path

theorem staysBelow_iff {path : String} :
    StaysBelow path ↔ path.toList.head? ≠ some '/' ∧ ".." ∉ pieces path :=
  ⟨fun h => ⟨h.relative, h.notUp⟩, fun h => ⟨h.1, h.2⟩⟩

instance (path : String) : Decidable (StaysBelow path) :=
  decidable_of_iff _ staysBelow_iff.symm

theorem head?_eq_slash_iff {path : String} :
    path.toList.head? = some '/' ↔ ∃ second rest, pieces path = "" :: second :: rest := by
  constructor
  · intro h
    obtain ⟨cs, hcs⟩ := List.head?_eq_some_iff.1 h
    have hpath : path = "" ++ "/" ++ String.ofList cs := by
      apply String.toList_injective
      simp [hcs]
    rw [hpath, pieces_append, pieces_empty]
    cases hrest : pieces (String.ofList cs) with
    | nil => exact absurd hrest (pieces_ne_nil _)
    | cons second rest => exact ⟨second, rest, rfl⟩
  · rintro ⟨second, rest, hpieces⟩
    rw [← intercalate_pieces path, hpieces, String.intercalate_cons_cons]
    simp

theorem root_mem_components_iff {path : String} :
    .root ∈ components path ↔ path.toList.head? = some '/' := by
  -- Only the empty piece in front of a slash becomes a root: a piece by itself never does.
  have hinner : .root ∉ (pieces path).filterMap Component.ofPiece? := by
    rw [List.mem_filterMap]
    rintro ⟨piece, -, hroot⟩
    unfold Component.ofPiece? at hroot
    repeat' split at hroot
    all_goals simp_all
  rw [head?_eq_slash_iff]
  unfold components
  dsimp only
  split
  next second rest hpieces => exact iff_of_true List.mem_cons_self ⟨second, rest, hpieces⟩
  next rest hpieces =>
    refine iff_of_false (by simp only [List.mem_cons, reduceCtorEq, false_or, hinner,
      not_false_eq_true]) ?_
    rintro ⟨second, rest', hslash⟩
    rw [hpieces, List.cons.injEq] at hslash
    exact absurd hslash.1 (by decide)
  next hnot _ =>
    refine iff_of_false hinner ?_
    rintro ⟨second, rest, hslash⟩
    exact hnot _ _ hslash

theorem parent_mem_components_iff {path : String} :
    .parent ∈ components path ↔ ".." ∈ pieces path := by
  have hinner : .parent ∈ (pieces path).filterMap Component.ofPiece? ↔ ".." ∈ pieces path := by
    rw [List.mem_filterMap]
    constructor
    · rintro ⟨piece, hpiece, hparent⟩
      unfold Component.ofPiece? at hparent
      repeat' split at hparent
      all_goals simp_all
    · intro h
      exact ⟨"..", h, rfl⟩
  rw [← hinner]
  unfold components
  dsimp only
  split
  next => simp only [List.mem_cons, reduceCtorEq, false_or]
  next => simp only [List.mem_cons, reduceCtorEq, false_or]
  next => rfl

/-- A directory takes the paths that stay below it, and no others. -/
theorem names?_isSome_iff {path : String} :
    (Output.names? path).isSome = true ↔ StaysBelow path := by
  rw [staysBelow_iff, ne_eq, ← root_mem_components_iff, ← parent_mem_components_iff]
  unfold Output.names?
  induction components path with
  | nil => simp
  | cons component rest ih =>
    rw [List.foldr_cons]
    cases component with
    | root => simp
    | parent => simp
    | current => simpa using ih
    | name text =>
      simp only [List.mem_cons, reduceCtorEq, false_or]
      rw [← ih]
      split
      next hrest =>
        rw [hrest]
        rfl
      next hname => cases hname
      next hnone =>
        refine iff_of_false Bool.false_ne_true fun hsome => ?_
        obtain ⟨names, hnames⟩ := Option.isSome_iff_exists.1 hsome
        exact hnone _ _ rfl hnames

theorem staysBelow_intercalate {names : List String} (hne : names ≠ [])
    (h : ∀ name ∈ names, IsName name) : StaysBelow ("/".intercalate names) := by
  rw [← names?_isSome_iff, names?_intercalate hne h]
  rfl

theorem staysBelow_append_iff {directory name : String} (hname : IsName name) :
    StaysBelow (directory ++ "/" ++ name) ↔ directory ≠ "" ∧ StaysBelow directory := by
  have hhead : (directory ++ "/" ++ name).toList.head? ≠ some '/' ↔
      directory ≠ "" ∧ directory.toList.head? ≠ some '/' := by
    rw [ne_eq directory, ← String.toList_eq_nil_iff]
    cases hcs : directory.toList <;> simp [hcs]
  have hup : ".." ∉ pieces (directory ++ "/" ++ name) ↔ ".." ∉ pieces directory := by
    rw [pieces_append, pieces_of_slashless hname.slashless, List.mem_append, List.mem_singleton,
      or_iff_left (Ne.symm hname.notUp)]
  rw [staysBelow_iff, staysBelow_iff, hhead, hup, and_assoc]

end Path

/-! ## Identifiers -/

theorem exists_fallbackIdentifier_eq (path : String) :
    ∃ cs : List Char, (∀ c ∈ cs, c.isAlphanum = true ∨ c = '_') ∧
      fallbackIdentifier path = "architectury_inject_" ++ String.ofList cs := by
  refine ⟨_, ?_, rfl⟩
  rw [List.forall_mem_map]
  intro c _
  unfold identifierChar
  split
  next h => exact .inl h
  next => exact .inr rfl

/-- The identifier that a run makes up for itself stays below. -/
theorem staysBelow_fallbackIdentifier (path : String) :
    fallbackIdentifier path ≠ "" ∧ Path.StaysBelow (fallbackIdentifier path) := by
  obtain ⟨cs, hcs, hpath⟩ := exists_fallbackIdentifier_eq path
  have hslash : '/' ∉ (fallbackIdentifier path).toList := by
    rw [hpath, String.toList_append, List.mem_append, not_or]
    refine ⟨by decide, fun hmem => ?_⟩
    rw [String.toList_ofList] at hmem
    rcases hcs _ hmem with h | h <;> exact absurd h (by decide)
  have hhead : (fallbackIdentifier path).toList.head? = some 'a' := by
    rw [hpath, String.toList_append, List.head?_append]
    rfl
  refine ⟨?_, ?_, ?_⟩
  · intro hempty
    rw [hempty] at hhead
    cases hhead
  · rw [hhead]
    decide
  · rw [Path.pieces_of_slashless hslash, List.mem_singleton]
    intro hup
    rw [← hup] at hhead
    cases hhead

theorem Forwarding.staysBelow_helper_iff {p : Preferences} {s : Settings} :
    Path.StaysBelow (helperName p s ++ ".class") ↔
      uniqueIdentifier p s ≠ "" ∧ Path.StaysBelow (uniqueIdentifier p s) := by
  have hname : Path.IsName "PlatformMethods.class" := ⟨by decide, by decide, by decide⟩
  have hpath : helperName p s ++ ".class" =
      uniqueIdentifier p s ++ "/" ++ "PlatformMethods.class" := by
    apply String.toList_injective
    simp [helperName]
  rw [hpath, Path.staysBelow_append_iff hname]

/-! ## Entries -/

namespace Entry

variable {input : String} {t : FileTree}

/-- The names that the files of what stands at the path `input` have there stay below. -/
def NamesStayBelow (input : String) : Snapshot → Prop
  | .missing => True
  | .directory _ => True
  | .file content =>
    if isArchivePath input = true then
      ∀ members, content.members? = some members →
        ∀ m ∈ members, EntryName.isDirectory m.name = false → Path.StaysBelow m.name
    else ∀ c, ClassFile.read content.octets = .ok c → Path.StaysBelow (c.name ++ ".class")

theorem forall_path_iff {entries : List Entry} {P : String → Prop} :
    (∀ e ∈ entries, P e.path) ↔ ∀ path ∈ entries.map (·.path), P path :=
  List.forall_mem_map.symm

theorem staysBelow_iff_of_collect (hwell : t.WellFormed) {collected : List Entry}
    (h : collect input (t.look input) = .ok collected) :
    (∀ e ∈ collected, Path.StaysBelow e.path) ↔ NamesStayBelow input (t.look input) := by
  have hnames : ∀ files, t.look input = .directory files →
      ∀ f ∈ files, f.1 ≠ [] ∧ ∀ name ∈ f.1, Path.IsName name := fun _ => hwell.names_of_look
  generalize t.look input = snapshot at h hnames
  cases gathered_of_collect h with
  | directory hperm =>
    refine iff_of_true (fun e he => ?_) trivial
    obtain ⟨f, hf, rfl⟩ := List.mem_map.1 (hperm.subset he)
    obtain ⟨hne, hall⟩ := hnames _ rfl f hf
    exact Path.staysBelow_intercalate hne hall
  | @archive content members _ _ hpath hopened hperm hstand =>
    rw [forall_path_iff, paths_of_stands hstand, List.forall_mem_map, NamesStayBelow, if_pos hpath]
    simp only [hperm.mem_iff, List.mem_filter, hopened, Option.some.injEq, forall_eq',
      Bool.not_eq_true', and_imp]
  | @classFile content c hpath hread =>
    have hnot : ¬ isArchivePath input = true := by
      simp [isArchivePath, hpath]
    rw [List.forall_mem_singleton, NamesStayBelow, if_neg hnot]
    simp only [hread, Except.ok.injEq, forall_eq']

end Entry

namespace Plan

variable {p : Preferences} {s : Settings} {plan : Plan}

/-- The entries that a plan hands over stay below just when the names of the input and the one of
the helper class do. -/
theorem Makes.staysBelow_iff {input : String} {t : FileTree} (hwell : t.WellFormed)
    (h : Makes p s input (t.look input) plan) :
    (∀ e ∈ plan.entries, Path.StaysBelow e.path) ↔
      Entry.NamesStayBelow input (t.look input) ∧ (s.isEnabled = true →
        Forwarding.uniqueIdentifier p s ≠ "" ∧
          Path.StaysBelow (Forwarding.uniqueIdentifier p s)) := by
  obtain ⟨collected, hcollect, processed, htreated, assets, hassets, rfl⟩ := h
  have hprocessed : (∀ e ∈ processed.map (·.entry), Path.StaysBelow e.path) ↔
      ∀ e ∈ collected, Path.StaysBelow e.path := by
    rw [Entry.forall_path_iff, paths_of_treated htreated, ← Entry.forall_path_iff]
    simp only [(Entry.manifestFirst_spec collected).perm.mem_iff]
  have hbesides : (∀ e ∈ assets, Path.StaysBelow e.path) ↔ (s.isEnabled = true →
      Path.StaysBelow (Forwarding.helperName p s ++ ".class")) := by
    cases hassets with
    | closed hclosed => simp [hclosed]
    | helper hopen => simp [hopen]
  rw [ofProcessed, List.forall_mem_append, hprocessed, hbesides,
    Entry.staysBelow_iff_of_collect hwell hcollect, Forwarding.staysBelow_helper_iff]

end Plan

/-! ## Runs -/

namespace Run

variable {a : Arguments} {loaded : Properties} {log : Array LogRecord} {t t' : FileTree}
  {plan : Plan}

/-- What a run writes into a directory stays below it, and nothing outside of it changes. An archive
holds whatever entries it is handed, and these stay below just when the names in the input and the
identifier that is given do. -/
theorem paths_stay_below (hwell : t.WellFormed) (h : Transforms a loaded log t plan t') :
    (isArchivePath a.output = false → (∀ e ∈ plan.entries, Path.StaysBelow e.path) ∧
      (a.output ≠ "" → ∃ l, t'.LeadsTo a.output l ∧
        ∀ l', ¬ l <+: l' → t'.content? l' = t.content? l')) ∧
    (isArchivePath a.output = true →
      t'.look a.output = .file (.archive (plan.entries.map Entry.toItem)) ∧
        ((∀ e ∈ plan.entries, Path.StaysBelow e.path) ↔
          Entry.NamesStayBelow a.input (t.look a.input) ∧
            ((settings a loaded).isEnabled = true → ∀ identifier,
              givenIdentifier? a loaded = some identifier →
                identifier ≠ "" ∧ Path.StaysBelow identifier))) := by
  obtain ⟨hmakes, hwrites⟩ := ends_transform_iff.1 h
  refine ⟨fun hdirectory => ⟨?_, fun hne => ?_⟩, fun harchive => ⟨?_, ?_⟩⟩
  · obtain ⟨t₀, -, hadds⟩ := (Output.writes_directory_iff hdirectory).1 hwrites
    exact fun e he => Path.names?_isSome_iff.1 (Output.names?_isSome_of_addsAll hadds e he)
  · exact Output.frame_of_writes hdirectory hne hwell hwrites
  · exact Output.look_of_writes_archive harchive hwrites
  · rw [hmakes.staysBelow_iff hwell, uniqueIdentifier_settings]
    cases givenIdentifier? a loaded with
    | none => simp [staysBelow_fallbackIdentifier]
    | some identifier => simp

/-- A class file is rewritten into a directory and into an archive, and both outputs stay below. -/
theorem paths_stay_below_sample :
    (∃ plan t', Transforms (sampleArguments "in.class" "out") .empty #[] sampleClassTree plan t' ∧
      (∀ e ∈ plan.entries, Path.StaysBelow e.path) ∧
        ∃ l, t'.LeadsTo "out" l ∧ ∀ l', ¬ l <+: l' → t'.content? l' = sampleClassTree.content? l') ∧
    ∃ plan t', Transforms (sampleArguments "in.class" "out.jar") .empty #[] sampleClassTree plan
        t' ∧
      t'.look "out.jar" = .file (.archive (plan.entries.map Entry.toItem)) ∧
        ((∀ e ∈ plan.entries, Path.StaysBelow e.path) ↔
          Entry.NamesStayBelow "in.class" (sampleClassTree.look "in.class") ∧
            ((settings (sampleArguments "in.class" "out.jar") .empty).isEnabled = true →
              ∀ identifier, givenIdentifier? (sampleArguments "in.class" "out.jar") .empty =
                some identifier → identifier ≠ "" ∧ Path.StaysBelow identifier)) := by
  constructor
  · obtain ⟨plan, h, -⟩ := exists_transforms sampleRun_sampleClassTree.1
    have hbelow := (paths_stay_below wellFormed_sampleClassTree h).1 (by decide)
    exact ⟨plan, _, h, hbelow.1, hbelow.2 (by decide)⟩
  · have hpaths : samplePaths (sampleArguments "in.class" "out.jar") .empty sampleClassTree =
        some ["a/B.class", "acme/PlatformMethods.class"] := by decide +kernel
    obtain ⟨plan, h, -⟩ := exists_transforms hpaths
    exact ⟨plan, _, h, (paths_stay_below wellFormed_sampleClassTree h).2 (by decide)⟩

/-- An archive with a member whose path starts at the root, a class with a name that goes up, and an
archive with nothing in it. -/
def escapingTree : FileTree :=
  ⟨[(["in.jar"], .file (.archive [("/abs.txt", [])])),
    (["in.class"], .file (.raw ((ClassFile.bare 52 0x21 "../Foo" none).write.toOption.getD []))),
    (["none.jar"], .file (.archive []))]⟩

/-- The member of an archive, the name of a class and the identifier lead out of archives that are
written, whereas a directory takes none of the three. -/
theorem perform_escaping :
    let run (input output identifier : String) := (perform { sampleArguments input output with
      uniqueIdentifier := some identifier } [] : StateM FileTree _).run escapingTree
    let paths (input identifier : String) :=
      ((run input "out.jar" identifier).2.look "out.jar").items.map Prod.fst
    let refused (path : String) : Except RunError Summary :=
      .error (Output.entryError "out" path (.file (some (Output.escapeMessage "out" path))))
    (run "in.jar" "out.jar" "../evil").1.1 = .ok ⟨0, 0, 0, none⟩ ∧
      paths "in.jar" "../evil" = ["/abs.txt", "../evil/PlatformMethods.class"] ∧
      (∀ path ∈ paths "in.jar" "../evil", ¬ Path.StaysBelow path) ∧
      (run "in.jar" "out" "../evil").1.1 = refused "/abs.txt" ∧
      (run "in.class" "out.jar" "acme").1.1 = .ok ⟨1, 0, 0, none⟩ ∧
      paths "in.class" "acme" = ["../Foo.class", "acme/PlatformMethods.class"] ∧
      ¬ Path.StaysBelow "../Foo.class" ∧
      (run "in.class" "out" "acme").1.1 = refused "../Foo.class" ∧
      (run "none.jar" "out" "../evil").1.1 = refused "../evil/PlatformMethods.class" := by
  decide +kernel

end Run

end PlatformLink
