import PlatformLink.Proofs.DirectoryCreation
import PlatformLink.Proofs.PlanSpec

/-! # Output into an archive

An archive takes entries when no name of theirs is too long and none comes twice
(`Output.Takes`), and then it holds them in their order (`Output.look_of_writes_archive`). All of
them are collected from it again, sorted by their names, if these are safe and none is that of a
directory (`Entry.collect_archive_eq_ok_iff`).
-/

namespace PlatformLink
set_option autoImplicit false

namespace Entry

def toItem (e : Entry) : Archive.Item := (e.path, e.content.octets)

def ofItem (item : Archive.Item) : Entry := ⟨item.1, .raw item.2⟩

theorem stands_ofItem_iff {item : Archive.Item} {e : Entry} :
    Stands (.ofItem item) e ↔ e = ofItem item := by
  obtain ⟨path, content⟩ := e
  simp [Stands, Archive.Member.ofItem, ofItem, eq_comm]

theorem forall₂_stands_iff {items : List Archive.Item} {entries : List Entry} :
    List.Forall₂ Stands (items.map .ofItem) entries ↔ entries = items.map ofItem := by
  induction items generalizing entries with
  | nil => simp
  | cons item items ih =>
    rw [List.map_cons, List.forall₂_cons_left_iff, List.map_cons]
    simp only [stands_ofItem_iff, ih]
    exact ⟨fun ⟨_, _, he, hes, h⟩ => by rw [h, he, hes], fun h => ⟨_, _, rfl, rfl, h⟩⟩

theorem paths_of_stands {members : List Archive.Member} {entries : List Entry}
    (h : List.Forall₂ Stands members entries) : entries.map (·.path) = members.map (·.name) := by
  induction h with
  | nil => rfl
  | cons hstands _ ih => rw [List.map_cons, List.map_cons, ih, hstands.1]

/-- Whether an item of an archive is collected, or skipped as a directory. -/
def Passes (item : Archive.Item) : Prop :=
  EntryName.isDirectory item.1 = true ∨ EntryName.isSafe item.1 = true

theorem checkMember_ofItem_eq_ok_iff {input : String} {item : Archive.Item} :
    checkMember input (.ofItem item) = .ok () ↔ Passes item := by
  unfold checkMember Passes Archive.Member.ofItem
  rw [if_neg (by simp)]
  by_cases h : EntryName.isDirectory item.1 = true ∨ EntryName.isSafe item.1 = true
  · simp [h]
  · rw [if_neg (by simpa using h)]
    simp [h]

theorem forM_checkMember_eq_ok_iff {input : String} {items : List Archive.Item} :
    List.forM (items.map Archive.Member.ofItem) (checkMember input) = .ok () ↔
      ∀ item ∈ items, Passes item := by
  induction items with
  | nil => simp [pure, Except.pure]
  | cons item items ih =>
    rw [List.map_cons, List.forM, bind_eq_ok_iff, List.forall_mem_cons, ← ih,
      ← checkMember_ofItem_eq_ok_iff]
    exact ⟨fun ⟨(), hhead, hrest⟩ => ⟨hhead, hrest⟩, fun ⟨hhead, hrest⟩ => ⟨(), hhead, hrest⟩⟩

def sortedFiles (items : List Archive.Item) : List Archive.Item :=
  (items.filter fun item => !EntryName.isDirectory item.1).mergeSort fun a b => decide (a.1 ≤ b.1)

theorem sortedFiles_perm (items : List Archive.Item) :
    (sortedFiles items).Perm (items.filter fun item => !EntryName.isDirectory item.1) :=
  List.mergeSort_perm _ _

/-- What is collected from an archive are its items but for the directories, if each of them
passes. -/
theorem collect_archive_eq_ok_iff {input : String} {items : List Archive.Item}
    {collected : List Entry} (harchive : isArchivePath input = true) :
    collect input (.file (.archive items)) = .ok collected ↔
      (∀ item ∈ items, Passes item) ∧ collected = (sortedFiles items).map ofItem := by
  have hsort : ((items.map Archive.Member.ofItem).filter
      fun m => !EntryName.isDirectory m.name).mergeSort (fun a b => decide (a.name ≤ b.name)) =
        (sortedFiles items).map .ofItem := by
    rw [List.filter_map, sortedFiles, List.map_mergeSort]
    · rfl
    · intro a _ b _
      rfl
  rw [collect, if_pos harchive]
  simp only [Content.members?]
  rw [ofArchive_eq_ok_iff, forM_checkMember_eq_ok_iff, hsort, forall₂_stands_iff]

end Entry

namespace Output

variable {t t' : FileTree} {path : String} {entries : List Entry}

/-- An archive takes the entries, one after another. -/
structure Takes (entries : List Entry) : Prop where
  short : ∀ e ∈ entries, e.path.utf8ByteSize ≤ maxNameSize
  nodup : (entries.map (·.path)).Nodup

/-- Whether an archive takes entries depends on their items alone, in whatever order. -/
theorem Takes.of_perm {others : List Entry} (h : Takes entries)
    (hperm : (others.map Entry.toItem).Perm (entries.map Entry.toItem)) : Takes others where
  short e he := by
    obtain ⟨e', he', heq⟩ := List.mem_map.1 (hperm.subset (List.mem_map_of_mem he))
    have hpath : e'.path = e.path := congrArg Prod.fst heq
    rw [← hpath]
    exact h.short e' he'
  nodup := by
    have hpaths := hperm.map Prod.fst
    rw [List.map_map, List.map_map] at hpaths
    exact hpaths.nodup_iff.2 h.nodup

theorem takes_cons_iff {e : Entry} : Takes (e :: entries) ↔
    e.path.utf8ByteSize ≤ maxNameSize ∧ Takes entries ∧ ∀ e' ∈ entries, e.path ≠ e'.path := by
  constructor
  · intro h
    obtain ⟨hne, hnodup⟩ := List.nodup_cons.1 h.nodup
    obtain ⟨hsize, hshort⟩ := List.forall_mem_cons.1 h.short
    exact ⟨hsize, ⟨hshort, hnodup⟩, fun e' he' heq => hne (List.mem_map.2 ⟨e', he', heq.symm⟩)⟩
  · intro ⟨hsize, htakes, hne⟩
    refine ⟨List.forall_mem_cons.2 ⟨hsize, htakes.short⟩, List.nodup_cons.2 ⟨?_, htakes.nodup⟩⟩
    intro hmem
    obtain ⟨e', he', heq⟩ := List.mem_map.1 hmem
    exact hne e' he' heq.symm

theorem takes_iff {items : List Archive.Item} {name : String} : takes items name = true ↔
    name.utf8ByteSize ≤ maxNameSize ∧ ∀ item ∈ items, item.1 ≠ name := by
  simp [takes]

theorem untilRefused_eq_iff {done items : List Archive.Item} :
    untilRefused done entries = (items, none) ↔
      (Takes entries ∧ ∀ e ∈ entries, ∀ item ∈ done, item.1 ≠ e.path) ∧
        items = done.reverse ++ entries.map Entry.toItem := by
  induction entries generalizing done with
  | nil =>
    have htakes : Takes [] := ⟨by simp, by simp⟩
    simp [untilRefused, htakes, eq_comm]
  | cons e entries ih =>
    have hpath : e.toItem.1 = e.path := rfl
    rw [untilRefused, takes_cons_iff, List.forall_mem_cons]
    split
    · rename_i htake
      obtain ⟨hsize, hne⟩ := takes_iff.1 htake
      change untilRefused (e.toItem :: done) entries = _ ↔ _
      rw [ih, List.reverse_cons, List.append_assoc, List.singleton_append, List.map_cons]
      simp only [List.forall_mem_cons, hpath, hsize, true_and]
      constructor
      · intro ⟨⟨htakes, hdone⟩, hitems⟩
        exact ⟨⟨⟨htakes, fun e' he' => (hdone e' he').1⟩, hne, fun e' he' => (hdone e' he').2⟩,
          hitems⟩
      · intro ⟨⟨⟨htakes, hnew⟩, _, hdone⟩, hitems⟩
        exact ⟨⟨htakes, fun e' he' => ⟨hnew e' he', hdone e' he'⟩⟩, hitems⟩
    · rename_i htake
      rw [takes_iff] at htake
      constructor
      · intro h
        cases h
      · intro ⟨⟨⟨hsize, _⟩, hne, _⟩, _⟩
        exact absurd ⟨hsize, hne⟩ htake

/-- The directory that an archive goes to can be had, which leaves the tree `t₀`. -/
def Room (path : String) (t t₀ : FileTree) : Prop :=
  t.createDirectories ((Path.parent? path).getD "") = (true, t₀)

/-- An archive is written when there is room for it and it takes all entries. -/
theorem writes_archive_iff (harchive : isArchivePath path = true) :
    Run.Writes path entries t t' ↔ Takes entries ∧ ∃ t₀, Room path t t₀ ∧
      t₀.store path (.archive (entries.map Entry.toItem)) = (true, t') := by
  unfold Run.Writes
  rw [write, if_pos harchive, toArchive, Run.writes_guarded_iff]
  simp only [Run.writes_guarded_iff]
  constructor
  · rintro ⟨t₀, hroom, t₁, hstored, hdone⟩
    match hrefused : untilRefused [] entries with
    | (items, some name) =>
      rw [hrefused] at hdone
      cases hdone
    | (items, none) =>
      obtain ⟨⟨htakes, -⟩, rfl⟩ := untilRefused_eq_iff.1 hrefused
      rw [hrefused] at hstored hdone
      cases hdone
      exact ⟨htakes, t₀, hroom, hstored⟩
  · rintro ⟨htakes, t₀, hroom, hstored⟩
    have hnone : untilRefused [] entries = (entries.map Entry.toItem, none) :=
      untilRefused_eq_iff.2 ⟨⟨htakes, by simp⟩, rfl⟩
    rw [hnone]
    exact ⟨t₀, hroom, t', hstored, rfl⟩

theorem look_of_store {content : Content} (h : t.store path content = (true, t')) :
    t'.look path = .file content := by
  obtain ⟨hpath, l, hplaces, hfind, rfl⟩ := FileTree.store_eq_true_iff.1 h
  have hne := hplaces.ne_nil
  obtain ⟨front, name, l₀, hpieces, hdescend, hdirectory, hname, rfl⟩ := hplaces
  have hkeep : ∀ l, t.find? l = some .directory →
      (t.put (l₀ ++ [name]) (.file content)).find? l = some .directory :=
    fun l => t.directory_put hne hfind
  have hlast : (t.put (l₀ ++ [name]) (.file content)).descend l₀ [name] = .ok (l₀ ++ [name]) :=
    FileTree.descend_cons_eq_ok_iff.2 ⟨hkeep l₀ hdirectory, _, FileTree.next?_name hname, rfl⟩
  have hat : (t.put (l₀ ++ [name]) (.file content)).at? path =
      some (l₀ ++ [name], .file content) := by
    rw [FileTree.at?_eq_some_iff, hpieces, FileTree.descend_append_eq_ok_iff]
    refine ⟨hpath, ⟨l₀, FileTree.descend_mono hkeep hdescend, hlast⟩, ?_⟩
    rw [FileTree.find?_put t hne, if_pos rfl]
  rw [FileTree.look, hat]

theorem look_of_writes_archive (harchive : isArchivePath path = true)
    (h : Run.Writes path entries t t') :
    t'.look path = .file (.archive (entries.map Entry.toItem)) := by
  obtain ⟨-, t₀, -, hstored⟩ := (writes_archive_iff harchive).1 h
  exact look_of_store hstored

end Output

end PlatformLink
