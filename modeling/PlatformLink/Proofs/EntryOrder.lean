import Mathlib.Data.List.Pairwise
import PlatformLink.Proofs.ArchiveOutput
import PlatformLink.Proofs.ByteOrder
import PlatformLink.Proofs.Conservation
import PlatformLink.Proofs.SettledOutput

/-! # The order of the entries

A run treats the manifest first. The files of an archive follow in the order of the octets of their
paths, those of a directory in the order of their names, level by level. These orders part where a
path leads through a directory and another one has, in the place of this directory, its name
continued by a character before the slash (`Path.Crosses`), and nowhere else:
`Run.orders_of_inputs`.
-/

namespace PlatformLink
set_option autoImplicit false

/-! ## Paths with common names -/

namespace Path

/-- The first names lead through a directory whose name is continued, in the place of it among the
second ones, by a character before the slash. -/
def Crosses (as bs : List String) : Prop :=
  ∃ front a rest b back c more, as = front ++ a :: rest ∧ rest ≠ [] ∧ bs = front ++ b :: back ∧
    b.toList = a.toList ++ c :: more ∧ c < '/'

theorem crosses_cons_iff {a b : String} {as bs : List String} :
    Crosses (a :: as) (b :: bs) ↔ a = b ∧ Crosses as bs ∨
      as ≠ [] ∧ ∃ c more, b.toList = a.toList ++ c :: more ∧ c < '/' := by
  constructor
  · rintro ⟨front, a', rest, b', back, c, more, has, hrest, hbs, hmore, hc⟩
    cases front with
    | nil =>
      cases has
      cases hbs
      exact .inr ⟨hrest, c, more, hmore, hc⟩
    | cons first front =>
      cases has
      cases hbs
      exact .inl ⟨rfl, front, a', rest, b', back, c, more, rfl, hrest, rfl, hmore, hc⟩
  · rintro (⟨rfl, front, a', rest, b', back, c, more, rfl, hrest, rfl, hmore, hc⟩ |
      ⟨hrest, c, more, hmore, hc⟩)
    · exact ⟨a :: front, a', rest, b', back, c, more, rfl, hrest, rfl, hmore, hc⟩
    · exact ⟨[], a, as, b, bs, c, more, rfl, hrest, rfl, hmore, hc⟩

theorem not_crosses_nil {bs : List String} : ¬ Crosses [] bs := by
  rintro ⟨front, a, rest, b, back, c, more, hnil, -⟩
  simp at hnil

theorem lt_append_cons (as : List Char) (c : Char) (more : List Char) : as < as ++ c :: more := by
  have h : as ++ [] < as ++ c :: more := List.append_left_lt (List.nil_lt_cons c more)
  rwa [List.append_nil] at h

theorem lt_of_crosses {as bs : List String} (h : Crosses as bs) : as < bs := by
  obtain ⟨front, a, rest, b, back, c, more, rfl, -, rfl, hmore, -⟩ := h
  have hlt := lt_append_cons a.toList c more
  rw [← hmore] at hlt
  exact List.append_left_lt (List.cons_lt_cons_iff.2 (.inl (String.lt_iff_toList_lt.2 hlt)))

theorem lt_append {as bs : List Char} (h : as < bs) (y : List Char) : as < bs ++ y := by
  induction as generalizing bs with
  | nil =>
    cases bs with
    | nil => exact absurd h (List.not_lt_nil _)
    | cons b bs => exact List.nil_lt_cons b _
  | cons a as ih =>
    cases bs with
    | nil => exact absurd h (List.not_lt_nil _)
    | cons b bs =>
      rw [List.cons_append, List.cons_lt_cons_iff]
      exact (List.cons_lt_cons_iff.1 h).imp_right fun ⟨hab, hrest⟩ => ⟨hab, ih hrest⟩

/-- A slash behind the smaller one of two texts keeps it the smaller one, unless the greater one
continues it by a character before the slash. -/
theorem append_slash_lt_iff {as bs : List Char} (h : as < bs) (hslash : '/' ∉ bs)
    (x y : List Char) :
    as ++ '/' :: x < bs ++ y ↔ ¬ ∃ c more, bs = as ++ c :: more ∧ c < '/' := by
  induction as generalizing bs with
  | nil =>
    cases bs with
    | nil => exact absurd h (List.not_lt_nil _)
    | cons b bs =>
      have hne : '/' ≠ b := by
        rintro rfl
        exact hslash List.mem_cons_self
      have hcontinued : (∃ c more, b :: bs = [] ++ c :: more ∧ c < '/') ↔ b < '/' := by
        constructor
        · rintro ⟨c, more, heq, hc⟩
          cases heq
          exact hc
        · exact fun hb => ⟨b, bs, rfl, hb⟩
      rw [hcontinued, not_lt, List.nil_append, List.cons_append, List.cons_lt_cons_iff]
      exact ⟨fun hlt => hlt.elim le_of_lt fun heq => absurd heq.1 hne,
        fun hle => .inl (lt_of_le_of_ne hle hne)⟩
  | cons a as ih =>
    cases bs with
    | nil => exact absurd h (List.not_lt_nil _)
    | cons b bs =>
      rw [List.cons_append, List.cons_append, List.cons_lt_cons_iff]
      rcases List.cons_lt_cons_iff.1 h with hab | ⟨rfl, hrest⟩
      · refine iff_of_true (.inl hab) ?_
        rintro ⟨c, more, heq, -⟩
        cases heq
        exact lt_irrefl a hab
      · simp only [lt_irrefl, false_or, true_and, List.cons_append, List.cons.injEq]
        exact ih hrest fun hmem => hslash (List.mem_cons_of_mem a hmem)

theorem toList_intercalate_cons (a : String) {as : List String} (hne : as ≠ []) :
    ("/".intercalate (a :: as)).toList = a.toList ++ '/' :: ("/".intercalate as).toList := by
  cases as with
  | nil => exact absurd rfl hne
  | cons b as =>
    rw [String.intercalate_cons_cons]
    simp

/-- Paths of names in ascending order are in ascending order themselves unless they cross. -/
theorem intercalate_lt_iff {as bs : List String} (hne : as ≠ []) (h : as < bs)
    (hslash : ∀ b ∈ bs, '/' ∉ b.toList) :
    "/".intercalate as < "/".intercalate bs ↔ ¬ Crosses as bs := by
  induction as generalizing bs with
  | nil => exact absurd rfl hne
  | cons a as ih =>
    cases bs with
    | nil => exact absurd h (List.not_lt_nil _)
    | cons b bs =>
      rw [List.forall_mem_cons] at hslash
      rw [crosses_cons_iff, String.lt_iff_toList_lt]
      rcases List.cons_lt_cons_iff.1 h with hab | ⟨rfl, hrest⟩
      -- The first names decide, and only a slash behind the smaller one can undo it.
      · have hback : ∃ y, ("/".intercalate (b :: bs)).toList = b.toList ++ y := by
          obtain ⟨rest, hrest⟩ := @exists_eq_intercalate_append [b] (by simp) bs
          exact ⟨rest.toList, by simpa using congrArg String.toList hrest⟩
        obtain ⟨y, hy⟩ := hback
        have hab' := String.lt_iff_toList_lt.1 hab
        rw [hy]
        by_cases has : as = []
        · subst has
          rw [String.intercalate_singleton]
          refine iff_of_true (lt_append hab' y) ?_
          rintro (⟨rfl, -⟩ | ⟨hnil, -⟩)
          · exact lt_irrefl a hab
          · exact hnil rfl
        · rw [toList_intercalate_cons a has, append_slash_lt_iff hab' hslash.1]
          simp [has, hab.ne]
      -- The first names are the same, and the same slash stands behind both.
      · have hbs : bs ≠ [] := by
          rintro rfl
          exact absurd hrest (List.not_lt_nil _)
        rw [toList_intercalate_cons a hbs]
        by_cases has : as = []
        · subst has
          rw [String.intercalate_singleton]
          refine iff_of_true (lt_append_cons _ _ _) ?_
          rintro (⟨-, hcrosses⟩ | ⟨hnil, -⟩)
          · exact not_crosses_nil hcrosses
          · exact hnil rfl
        · have hmono : StrictMono fun cs : List Char => a.toList ++ '/' :: cs := fun _ _ hlt =>
            List.append_left_lt (List.cons_lt_cons_iff.2 (.inr ⟨rfl, hlt⟩))
          rw [toList_intercalate_cons a has, hmono.lt_iff_lt, ← String.lt_iff_toList_lt,
            ih has hrest hslash.2]
          simp

/-- Of two paths whose names are in ascending order the first is the smaller one unless they
cross. -/
theorem lt_iff_not_crosses {a b : String} (h : pieces a < pieces b) :
    a < b ↔ ¬ Crosses (pieces a) (pieces b) := by
  have hlt := intercalate_lt_iff (pieces_ne_nil a) h fun _ => slashless_of_mem_pieces
  rwa [intercalate_pieces, intercalate_pieces] at hlt

theorem lt_of_crosses_pieces {a b : String} (h : Crosses (pieces a) (pieces b)) : b < a := by
  have hpieces := lt_of_crosses h
  have hne : a ≠ b := by
    rintro rfl
    exact lt_irrefl _ hpieces
  exact lt_of_le_of_ne (not_lt.1 fun hlt => (lt_iff_not_crosses hpieces).1 hlt h) hne.symm

/-! ## Orders -/

/-- The order of the octets of two paths. -/
def ByOctets (a b : String) : Prop := octetNumbers a ≤ octetNumbers b

/-- The order of the names in two paths, each by its octets. -/
def ByNames (a b : String) : Prop :=
  (pieces a).map octetNumbers ≤ (pieces b).map octetNumbers

theorem byOctets_iff {a b : String} : ByOctets a b ↔ a ≤ b := octetNumbers_le_iff

theorem byNames_iff {a b : String} : ByNames a b ↔ pieces a ≤ pieces b := map_octetNumbers_le_iff

/-- Two ascending lists of the same paths are one list unless two of the paths cross. -/
theorem eq_iff_not_crosses {paths paths' : List String} (h : paths.Pairwise ByNames)
    (h' : paths'.Pairwise ByOctets) (hperm : paths'.Perm paths) :
    paths = paths' ↔ ∀ a ∈ paths, ∀ b ∈ paths, ¬ Crosses (pieces a) (pieces b) := by
  constructor
  · rintro rfl a ha b hb hcrosses
    have hlt := lt_of_crosses_pieces hcrosses
    -- In the list, which is in both orders, one of the crossing paths comes first: the two orders
    -- would agree on them.
    let Both (a b : String) : Prop := ByNames a b ∧ ByOctets a b
    have hsymm : Std.Symm fun a b => Both a b ∨ Both b a := ⟨fun _ _ => Or.symm⟩
    have hboth : paths.Pairwise fun a b => Both a b ∨ Both b a := (h.and h').imp .inl
    rcases hboth.forall ha hb hlt.ne' with hab | hba
    · exact not_lt.2 (byOctets_iff.1 hab.2) hlt
    · exact not_lt.2 (byNames_iff.1 hba.1) (lt_of_crosses hcrosses)
  · intro hnot
    have hoctets : paths.Pairwise ByOctets := h.imp_of_mem fun {a b} ha hb hab => by
      rw [byOctets_iff]
      rw [byNames_iff] at hab
      rcases lt_or_eq_of_le hab with hlt | heq
      · exact le_of_lt ((lt_iff_not_crosses hlt).2 (hnot a ha b hb))
      · rw [← intercalate_pieces a, heq, intercalate_pieces]
    exact List.Perm.eq_of_pairwise
      (fun a b _ _ hab hba => le_antisymm (byOctets_iff.1 hab) (byOctets_iff.1 hba))
      hoctets h' hperm.symm

/-- The manifest in front, if there is one, and the other paths in ascending order. -/
def ManifestThen (R : String → String → Prop) (paths : List String) : Prop :=
  ∃ manifests others, paths = manifests ++ others ∧ (∀ path ∈ manifests, path = manifestPath) ∧
    (∀ path ∈ others, path ≠ manifestPath) ∧ others.Pairwise R

end Path

namespace Entry

theorem manifestThen_manifestFirst {R : String → String → Prop} {entries : List Entry}
    (h : (entries.map (·.path)).Pairwise R) :
    Path.ManifestThen R ((manifestFirst entries).map (·.path)) := by
  obtain ⟨manifests, others, hsplit, -, hmanifests, hsublist, hothers⟩ :=
    (manifestFirst_spec entries).split
  rw [hsplit, List.map_append]
  exact ⟨_, _, rfl, List.forall_mem_map.2 hmanifests, List.forall_mem_map.2 hothers,
    h.sublist (hsublist.map _)⟩

end Entry

namespace Path

theorem filter_eq_manifests {manifests others : List String}
    (hmanifests : ∀ path ∈ manifests, path = manifestPath)
    (hothers : ∀ path ∈ others, path ≠ manifestPath) :
    (manifests ++ others).filter (· = manifestPath) = manifests := by
  rw [List.filter_append, List.filter_eq_self.2 (by simpa using hmanifests),
    List.filter_eq_nil_iff.2 (by simpa using hothers), List.append_nil]

theorem filter_eq_others {manifests others : List String}
    (hmanifests : ∀ path ∈ manifests, path = manifestPath)
    (hothers : ∀ path ∈ others, path ≠ manifestPath) :
    (manifests ++ others).filter (· ≠ manifestPath) = others := by
  rw [List.filter_append, List.filter_eq_nil_iff.2 (by simpa using hmanifests),
    List.filter_eq_self.2 (by simpa using hothers), List.nil_append]

/-- The two orders of some paths are one order unless two of the paths cross that are not the
manifest. -/
theorem manifestThen_eq_iff {paths paths' : List String} (h : ManifestThen ByNames paths)
    (h' : ManifestThen ByOctets paths') (hperm : paths'.Perm paths) :
    paths = paths' ↔ ∀ a ∈ paths, ∀ b ∈ paths, a ≠ manifestPath → b ≠ manifestPath →
      ¬ Crosses (pieces a) (pieces b) := by
  obtain ⟨manifests, others, rfl, hmanifests, hothers, hsorted⟩ := h
  obtain ⟨manifests', others', rfl, hmanifests', hothers', hsorted'⟩ := h'
  have hperm₁ := hperm.filter (· = manifestPath)
  have hperm₂ := hperm.filter (· ≠ manifestPath)
  rw [filter_eq_manifests hmanifests hothers, filter_eq_manifests hmanifests' hothers'] at hperm₁
  rw [filter_eq_others hmanifests hothers, filter_eq_others hmanifests' hothers'] at hperm₂
  have hsame : manifests' = manifests := by
    rw [List.eq_replicate_of_mem hmanifests, List.eq_replicate_of_mem hmanifests',
      hperm₁.length_eq]
  rw [hsame, List.append_cancel_left_eq, eq_iff_not_crosses hsorted hsorted' hperm₂]
  constructor
  · intro hnot a ha b hb hane hbne
    exact hnot a ((List.mem_append.1 ha).resolve_left fun hmem => hane (hmanifests a hmem)) b
      ((List.mem_append.1 hb).resolve_left fun hmem => hbne (hmanifests b hmem))
  · intro hnot a ha b hb
    exact hnot a (List.mem_append_right _ ha) b (List.mem_append_right _ hb) (hothers a ha)
      (hothers b hb)

end Path

/-! ## Inputs -/

theorem namesLe_iff {as bs : List String} : namesLe as bs = true ↔ as ≤ bs := by
  rw [← not_lt]
  induction as generalizing bs with
  | nil => simp [namesLe]
  | cons a as ih =>
    cases bs with
    | nil => simp [namesLe]
    | cons b bs =>
      rw [namesLe, List.cons_lt_cons_iff]
      split
      next heq =>
        rw [ih, heq]
        simp
      next hne =>
        rw [decide_eq_true_eq, not_or, not_lt]
        exact ⟨fun hlt => ⟨le_of_lt hlt, fun h => hne h.1.symm⟩, fun h => lt_of_le_of_ne h.1 hne⟩

/-- The paths of the files in a directory or an archive. -/
def Snapshot.paths : Snapshot → List String
  | .directory files => files.map fun f => (Entry.ofFile f).path
  | .file content =>
    ((content.members?.getD []).filter fun m => !EntryName.isDirectory m.name).map (·.name)
  | .missing => []

namespace Entry

variable {input : String} {collected : List Entry}

theorem ofDirectory_perm (files : List (List String × Content)) :
    ((ofDirectory files).map (·.path)).Perm (Snapshot.directory files).paths := by
  rw [ofDirectory, List.map_map]
  exact (List.mergeSort_perm _ _).map _

theorem pairwise_ofDirectory {files : List (List String × Content)}
    (hnames : ∀ f ∈ files, f.1 ≠ [] ∧ ∀ name ∈ f.1, Path.IsName name) :
    ((ofDirectory files).map (·.path)).Pairwise Path.ByNames := by
  have hsorted := @List.pairwise_mergeSort _ (fun a b : List String × Content => namesLe a.1 b.1)
    (fun a b c hab hbc => namesLe_iff.2 (le_trans (namesLe_iff.1 hab) (namesLe_iff.1 hbc)))
    (fun a b => by
      rw [Bool.or_eq_true, namesLe_iff, namesLe_iff]
      exact le_total a.1 b.1) files
  rw [ofDirectory, List.map_map, List.pairwise_map]
  refine hsorted.imp_of_mem fun {f g} hf hg hle => ?_
  obtain ⟨hfne, hf⟩ := hnames f (List.mem_mergeSort.1 hf)
  obtain ⟨hgne, hg⟩ := hnames g (List.mem_mergeSort.1 hg)
  rw [Path.byNames_iff, Function.comp_apply, Function.comp_apply, Path.pieces_names hfne hf,
    Path.pieces_names hgne hg]
  exact namesLe_iff.1 hle

theorem stands_of_collect {content : Content} (harchive : isArchivePath input = true)
    (h : collect input (.file content) = .ok collected) :
    ∃ members, content.members? = some members ∧ List.Forall₂ Stands
      ((members.filter fun m => !EntryName.isDirectory m.name).mergeSort
        fun a b => decide (a.name ≤ b.name)) collected := by
  rw [collect, if_pos harchive] at h
  split at h
  next members hmembers => exact ⟨members, hmembers, (ofArchive_eq_ok_iff.1 h).2⟩
  next => cases h

/-- The files of an archive are collected in the order of the octets of their paths. -/
theorem ordered_of_archive {content : Content} (harchive : isArchivePath input = true)
    (h : collect input (.file content) = .ok collected) :
    (collected.map (·.path)).Perm (Snapshot.file content).paths ∧
      (collected.map (·.path)).Pairwise Path.ByOctets := by
  obtain ⟨members, hmembers, hstand⟩ := stands_of_collect harchive h
  rw [paths_of_stands hstand, Snapshot.paths, hmembers, Option.getD_some]
  refine ⟨(List.mergeSort_perm _ _).map _, List.pairwise_map.2 ?_⟩
  have hsorted := @List.pairwise_mergeSort _ (fun a b : Archive.Member => decide (a.name ≤ b.name))
    (fun a b c hab hbc => decide_eq_true (le_trans (of_decide_eq_true hab) (of_decide_eq_true hbc)))
    (fun a b => by
      rw [Bool.or_eq_true, decide_eq_true_eq, decide_eq_true_eq]
      exact le_total a.name b.name)
    (members.filter fun m => !EntryName.isDirectory m.name)
  exact hsorted.imp fun hle => Path.byOctets_iff.2 (of_decide_eq_true hle)

end Entry

/-! ## Runs -/

namespace Run

/-- The entries were treated one after another and handed over in this order, before what was
emitted besides, to be written one after another. -/
structure InOrder (p : Preferences) (s : Settings) (output : String) (t : FileTree) (plan : Plan)
    (t' : FileTree) (ordered : List Entry) : Prop where
  treated : ∃ processed assets, List.Forall₂ (Plan.Treated p s) ordered processed ∧
    Plan.Besides p s assets ∧ plan.entries = processed.map (·.entry) ++ assets
  handedOver : ∃ emitted, plan.entries.map (·.path) = ordered.map (·.path) ++ emitted
  written : Writes output plan.entries t t'
  archived : isArchivePath output = true →
    t'.look output = .file (.archive (plan.entries.map Entry.toItem))

theorem inOrder_of_ends {p : Preferences} {s : Settings} {input output : String}
    {log : Array LogRecord} {t t' : FileTree} {plan : Plan} {snapshot : Snapshot}
    {collected : List Entry} (hcollect : Entry.collect input snapshot = .ok collected)
    (h : Ends (transform p s input output snapshot) log t plan t') :
    InOrder p s output t plan t' (Entry.manifestFirst collected) := by
  obtain ⟨⟨collected', hcollect', processed, htreated, assets, hassets, rfl⟩, hwrites⟩ :=
    ends_transform_iff.1 h
  rw [hcollect] at hcollect'
  cases hcollect'
  refine ⟨⟨processed, assets, htreated, hassets, rfl⟩, ⟨assets.map (·.path), ?_⟩, hwrites,
    fun harchive => Output.look_of_writes_archive harchive hwrites⟩
  rw [Plan.ofProcessed, List.map_append, Plan.paths_of_treated htreated]

/-- The same files are treated and handed over manifest first whether they come from a directory or
from an archive, and then from the directory in the order of their names and from the archive in the
order of the octets of their paths. This is one order unless two of the paths cross. -/
theorem orders_of_inputs {t : FileTree} {directory archive : String}
    {files : List (List String × Content)} {content : Content} {collected : List Entry}
    (hwell : t.WellFormed) (hdirectory : t.look directory = .directory files)
    (harchive : isArchivePath archive = true)
    (hcollect : Entry.collect archive (.file content) = .ok collected)
    (hsame : (Snapshot.file content).paths.Perm (Snapshot.directory files).paths) :
    let ordered := Entry.manifestFirst (Entry.ofDirectory files)
    let ordered' := Entry.manifestFirst collected
    let paths := ordered.map (·.path)
    let paths' := ordered'.map (·.path)
    (paths.Perm (Snapshot.directory files).paths ∧ Path.ManifestThen Path.ByNames paths ∧
      ∀ p s output log plan t', Ends (transform p s directory output (t.look directory)) log t plan
        t' → InOrder p s output t plan t' ordered) ∧
    (paths'.Perm (Snapshot.directory files).paths ∧ Path.ManifestThen Path.ByOctets paths' ∧
      ∀ p s output log u plan u', Ends (transform p s archive output (.file content)) log u plan
        u' → InOrder p s output u plan u' ordered') ∧
    (paths = paths' ↔ ∀ a ∈ paths, ∀ b ∈ paths, a ≠ manifestPath → b ≠ manifestPath →
      ¬ Path.Crosses (Path.pieces a) (Path.pieces b)) := by
  intro ordered ordered' paths paths'
  have hperm : paths.Perm (Snapshot.directory files).paths :=
    ((Entry.manifestFirst_spec _).perm.map _).trans (Entry.ofDirectory_perm files)
  obtain ⟨hfiles, hsorted⟩ := Entry.ordered_of_archive harchive hcollect
  have hperm' : paths'.Perm (Snapshot.directory files).paths :=
    ((Entry.manifestFirst_spec _).perm.map _).trans (hfiles.trans hsame)
  have hpaths : Path.ManifestThen Path.ByNames paths :=
    Entry.manifestThen_manifestFirst (Entry.pairwise_ofDirectory (hwell.names_of_look hdirectory))
  have hpaths' : Path.ManifestThen Path.ByOctets paths' := Entry.manifestThen_manifestFirst hsorted
  have hofDirectory : Entry.collect directory (t.look directory) =
      .ok (Entry.ofDirectory files) := by
    rw [hdirectory, Entry.collect]
  exact ⟨⟨hperm, hpaths, fun _ _ _ _ _ _ => inOrder_of_ends hofDirectory⟩,
    ⟨hperm', hpaths', fun _ _ _ _ _ _ _ => inOrder_of_ends hcollect⟩,
    Path.manifestThen_eq_iff hpaths hpaths' (hperm'.trans hperm.symm)⟩

/-- The same two files in a directory and in an archive. The name of one continues that of the
directory which the other one lies in. -/
def crossingTree : FileTree :=
  ⟨[(["in"], .directory), (["in", "a"], .directory), (["in", "a", "c"], .file (.raw [1])),
    (["in", "a.b"], .file (.raw [2])),
    (["in.jar"], .file (.archive [("a.b", [2]), ("a/c", [1])]))]⟩

theorem wellFormed_crossingTree : crossingTree.WellFormed where
  nodup := by decide
  ne_nil := by decide
  names := by
    have hname : ∀ name ∈ ["in", "a", "c", "a.b", "in.jar"], FileTree.IsNodeName name := by
      intro name hname
      simp only [List.mem_cons, List.not_mem_nil, or_false] at hname
      rcases hname with rfl | rfl | rfl | rfl | rfl <;>
        exact ⟨⟨by decide, by decide, by decide⟩, by decide, by decide⟩
    intro entry hentry name hmem
    exact hname name (by revert entry name; decide)
  closed := by decide

theorem collect_crossingTree :
    Entry.ofDirectory [(["a", "c"], .raw [1]), (["a.b"], .raw [2])] =
        [⟨"a/c", .raw [1]⟩, ⟨"a.b", .raw [2]⟩] ∧
      Entry.collect "in.jar" (.file (.archive [("a.b", [2]), ("a/c", [1])])) =
        .ok [⟨"a.b", .raw [2]⟩, ⟨"a/c", .raw [1]⟩] := by
  constructor
  · rw [Entry.ofDirectory, List.mergeSort_of_pairwise (by decide)]
    rfl
  · rw [Entry.collect_archive_eq_ok_iff (by decide), Entry.sortedFiles,
      List.mergeSort_of_pairwise (by decide)]
    unfold Entry.Passes
    exact ⟨by decide, rfl⟩

theorem orders_of_inputs_sample :
    crossingTree.look "in" = .directory [(["a", "c"], .raw [1]), (["a.b"], .raw [2])] ∧
    ∃ collected, Entry.collect "in.jar" (crossingTree.look "in.jar") = .ok collected ∧
      (Entry.manifestFirst (Entry.ofDirectory
        [(["a", "c"], .raw [1]), (["a.b"], .raw [2])])).map (·.path) ≠
          (Entry.manifestFirst collected).map (·.path) := by
  have hlook : crossingTree.look "in" = .directory [(["a", "c"], .raw [1]), (["a.b"], .raw [2])] :=
    rfl
  have horders := orders_of_inputs wellFormed_crossingTree hlook (by decide) collect_crossingTree.2
    (by decide)
  refine ⟨hlook, _, collect_crossingTree.2, fun heq => ?_⟩
  rw [collect_crossingTree.1] at horders heq
  have hcrosses : Path.Crosses (Path.pieces "a/c") (Path.pieces "a.b") :=
    ⟨[], "a", ["c"], "a.b", [], '.', ['b'], by decide, by decide, by decide, by decide, by decide⟩
  exact horders.2.2.1 heq "a/c" (by decide) "a.b" (by decide) (by decide) (by decide) hcrosses

/-- With the gate closed a run hands over resources as they are. -/
theorem exists_ends_of_resources {p : Preferences} {s : Settings} {input output : String}
    {log : Array LogRecord} {t t' : FileTree} {snapshot : Snapshot} {collected : List Entry}
    (hcollect : Entry.collect input snapshot = .ok collected) (hclosed : s.isEnabled = false)
    (hresources : ∀ e ∈ collected, e.isClass = false)
    (hwrites : Writes output (Entry.manifestFirst collected) t t') :
    ∃ plan, Ends (transform p s input output snapshot) log t plan t' := by
  have hsettled : ∀ e ∈ collected, Plan.Settled p s e := by
    intro e he hclass
    rw [hresources e he] at hclass
    cases hclass
  obtain ⟨plan, hmakes, hentries, -⟩ :=
    Plan.exists_makes_of_settled hcollect hsettled (.closed hclosed)
  rw [List.append_nil] at hentries
  exact ⟨plan, ends_transform_iff.2 ⟨hmakes, hentries ▸ hwrites⟩⟩

/-- The two files come out of the directory and out of the archive in different orders, and those of
the directory are not in the order of the octets of their paths. -/
theorem transform_crossingTree :
    let closed : Settings := ⟨⟨[(Key.injectables, "false")]⟩, ""⟩
    (∃ plan t', Ends (transform .none closed "in" "out.jar" (crossingTree.look "in")) #[]
        crossingTree plan t' ∧
      t'.look "out.jar" = .file (.archive [("a/c", [1]), ("a.b", [2])])) ∧
    (∃ plan t', Ends (transform .none closed "in.jar" "out.jar" (crossingTree.look "in.jar")) #[]
        crossingTree plan t' ∧
      t'.look "out.jar" = .file (.archive [("a.b", [2]), ("a/c", [1])])) ∧
    ¬ Path.ByOctets "a/c" "a.b" := by
  intro closed
  have hclosed : closed.isEnabled = false := by decide
  refine ⟨?_, ?_, ?_⟩
  · have hcollect : Entry.collect "in" (crossingTree.look "in") =
        .ok [⟨"a/c", .raw [1]⟩, ⟨"a.b", .raw [2]⟩] :=
      congrArg Except.ok collect_crossingTree.1
    have hwrites : Writes "out.jar" [⟨"a/c", .raw [1]⟩, ⟨"a.b", .raw [2]⟩] crossingTree
        (crossingTree.put ["out.jar"] (.file (.archive [("a/c", [1]), ("a.b", [2])]))) := by
      change (_ : Output.Written × FileTree) = _
      decide +kernel
    obtain ⟨plan, h⟩ := exists_ends_of_resources hcollect hclosed (by decide) hwrites
    exact ⟨plan, _, h, rfl⟩
  · have hwrites : Writes "out.jar" [⟨"a.b", .raw [2]⟩, ⟨"a/c", .raw [1]⟩] crossingTree
        (crossingTree.put ["out.jar"] (.file (.archive [("a.b", [2]), ("a/c", [1])]))) := by
      change (_ : Output.Written × FileTree) = _
      decide +kernel
    obtain ⟨plan, h⟩ :=
      exists_ends_of_resources collect_crossingTree.2 hclosed (by decide) hwrites
    exact ⟨plan, _, h, rfl⟩
  · rw [Path.byOctets_iff]
    decide

end Run

end PlatformLink
