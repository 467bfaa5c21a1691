import Mathlib.Logic.Relation
import PlatformLink.Proofs.EntryPaths

/-! # What calls for entries can touch

Entries are written into a directory by one call after another, each of which may fail and leave
directories behind. Every directory that a call makes lies on the way from the directory to the
place of its entry (`FileTree.StandsAt.changesOnly_createParent`): what is above the root stands
already, and stays. So whatever the calls, nothing changes but strictly below the root
(`Output.CallsEach.contained`).
-/

namespace PlatformLink
set_option autoImplicit false

open PlatformLink.Path (IsName)

namespace FileTree

variable {t t' : FileTree} {l l' : Location} {root path : String} {names : List String}

/-- The trees differ at locations of `S` only. -/
def ChangesOnly (S : Location → Prop) (t t' : FileTree) : Prop :=
  ∀ l, t'.find? l ≠ t.find? l → S l

theorem ChangesOnly.refl (S : Location → Prop) (t : FileTree) : ChangesOnly S t t :=
  fun _ h => absurd rfl h

theorem ChangesOnly.trans {S : Location → Prop} {t₁ t₂ t₃ : FileTree} (h : ChangesOnly S t₁ t₂)
    (h' : ChangesOnly S t₂ t₃) : ChangesOnly S t₁ t₃ := by
  intro l hne
  by_cases hmid : t₂.find? l = t₁.find? l
  · apply h'
    rwa [hmid]
  · exact h l hmid

theorem ChangesOnly.mono {S S' : Location → Prop} (h : ChangesOnly S t t')
    (hS : ∀ l, S l → S' l) : ChangesOnly S' t t' :=
  fun l hne => hS l (h l hne)

theorem ChangesOnly.put {S : Location → Prop} {n : Node} (hl : l ≠ []) (hS : S l) :
    ChangesOnly S t (t.put l n) := by
  intro l' hne
  rw [find?_put t hl] at hne
  split at hne
  next heq => rwa [heq]
  next => exact absurd rfl hne

/-- The places below a location on the way to some names, and these themselves. -/
def OnTheWay (l : Location) (names : List String) (l' : Location) : Prop :=
  ∃ front, front ≠ [] ∧ front <+: names ∧ l' = l ++ front

def StrictlyBelow (l l' : Location) : Prop := ∃ names, names ≠ [] ∧ l' = l ++ names

theorem OnTheWay.strictlyBelow (h : OnTheWay l names l') : StrictlyBelow l l' := by
  obtain ⟨front, hne, -, heq⟩ := h
  exact ⟨front, hne, heq⟩

/-! ## The root -/

/-- The directory that entries are written into; with an empty path it is the working directory. -/
def StandsAt (t : FileTree) (root : String) (l : Location) : Prop :=
  if root = "" then l = [] else t.LeadsTo root l

namespace StandsAt

theorem find? (h : t.StandsAt root l) : t.find? l = some .directory := by
  unfold StandsAt at h
  split at h
  · rw [h, find?_nil]
  · exact h.find?

theorem descend_trunk (h : t.StandsAt root l) : t.descend [] (Path.trunk root) = .ok l := by
  unfold StandsAt at h
  split at h
  next hempty =>
    rw [hempty, h]
    rfl
  next => exact h.descend_trunk

theorem mono (h : t.StandsAt root l)
    (hkeeps : ∀ l, t.find? l = some .directory → t'.find? l = some .directory) :
    t'.StandsAt root l := by
  unfold StandsAt at h ⊢
  split at h
  · rwa [if_pos ‹_›]
  · rw [if_neg ‹_›]
    exact h.mono hkeeps

theorem grows (h : t.StandsAt root l) (hgrows : t.Grows t') : t'.StandsAt root l :=
  h.mono fun l => hgrows.keeps l .directory

/-! ## Directories on the way -/

/-- A directory whose path is part of the one to some names is made on the way to them, or not at
all. -/
theorem changesOnly_makeDirectory (h : t.StandsAt root l) (hnames : ∀ name ∈ names, IsName name)
    (hleading : Path.trunk path <+: Path.trunk (names.foldl Path.join root)) :
    ChangesOnly (OnTheWay l names) t (t.makeDirectory path).2 := by
  obtain heq | ⟨l', hplaces, hfind, heq⟩ := t.makeDirectory_eq path
  · rw [heq]
    exact .refl _ t
  · rw [heq]
    refine .put hplaces.ne_nil ?_
    have hbase := h.descend_trunk
    have hfront : dropEmpty (Path.pieces path) <+: Path.trunk root ++ names := by
      rw [← Path.trunk_foldl_join root hnames]
      exact (dropEmpty_pieces_isPrefix path).trans hleading
    have hdescend := hplaces.descend
    have hnew : t.find? l' ≠ some .directory := by
      rw [hfind]
      exact nofun
    obtain ⟨back, hback⟩ := hfront
    obtain ⟨more, hmore, -⟩ | ⟨more, hmore, hrest⟩ := List.append_eq_append_iff.1 hback
    · -- a directory on the way to the root stands already
      exact absurd (directory_of_descend_front ⟨more, hmore.symm⟩ hbase h.find? hdescend) hnew
    · rw [hmore, descend_append, hbase] at hdescend
      have hl' : l' = l ++ more := by
        apply eq_append_of_descend _ hdescend
        intro name hname
        exact hnames name (by rw [hrest]; exact List.mem_append_left _ hname)
      refine ⟨more, ?_, ⟨back, hrest.symm⟩, hl'⟩
      rintro rfl
      rw [List.append_nil] at hl'
      rw [hl'] at hnew
      exact hnew h.find?

/-- The directories above the place of an entry. -/
theorem changesOnly_createParent (h : t.StandsAt root l) (hnames : ∀ name ∈ names, IsName name) :
    ChangesOnly (OnTheWay l names) t (t.createDirectories
      ((Path.parent? (names.foldl Path.join root)).getD "")).2 := by
  have hkeeps := createInnermost_keeps
    (R := fun t t' => t.StandsAt root l → t'.StandsAt root l ∧ ChangesOnly (OnTheWay l names) t t')
    (fun t h => ⟨h, .refl _ t⟩)
    (fun _ _ _ h₁ h₂ h => ⟨(h₂ (h₁ h).1).1, (h₁ h).2.trans (h₂ (h₁ h).1).2⟩)
    (fun path hpath t h => ⟨h.grows (grows_makeDirectory t path),
      h.changesOnly_makeDirectory hnames (Path.trunk_isPrefix_of_mem_ancestors_parent? hpath)⟩) t
  exact (hkeeps h).2

/-- A file that is stored under names joined to the root comes to these names below it, of which
there is at least one. -/
theorem store_eq_true (h : t.StandsAt root l) (hnames : ∀ name ∈ names, IsName name)
    {content : Content} (hstore : t.store (names.foldl Path.join root) content = (true, t')) :
    names ≠ [] ∧ t'.StandsAt root l ∧ t' = t.put (l ++ names) (.file content) := by
  obtain ⟨-, l', hplaces, hfind, rfl⟩ := store_eq_true_iff.1 hstore
  have hstands := h.mono fun _ => t.directory_put (n := .file content) hplaces.ne_nil hfind
  obtain rfl := Output.eq_append_of_places h.descend_trunk h.find? hnames hplaces
  refine ⟨?_, hstands, rfl⟩
  rintro rfl
  rw [List.append_nil] at hfind
  exact hfind h.find?

end StandsAt

theorem eq_of_store_eq_false {content : Content} (h : t.store path content = (false, t')) :
    t' = t := by
  unfold store at h
  split at h
  · exact (congrArg Prod.snd h).symm
  · split at h
    · exact (congrArg Prod.snd h).symm
    · cases h

end FileTree

namespace Output

open FileTree (ChangesOnly OnTheWay StrictlyBelow StandsAt)

variable {t t' t₀ : FileTree} {l : Location} {root : String} {e : Entry} {r : Written}

/-! ## One call -/

/-- A call for an entry, which leaves the tree `t'`. -/
def Calls (root : String) (e : Entry) (t : FileTree) (r : Written) (t' : FileTree) : Prop :=
  (addToDirectory root e : StateM FileTree Written).run t = (r, t')

instance : Decidable (Calls root e t r t') :=
  inferInstanceAs (Decidable (@Eq (Written × FileTree)
    ((addToDirectory root e : StateM FileTree Written).run t) (r, t')))

/-- The error of a path that leaves the directory. -/
def escape (root path : String) : RunError :=
  entryError root path (.file (some (escapeMessage root path)))

theorem calls_escaping (hnames : names? e.path = none) :
    Calls root e t r t' ↔ r = .error (escape root e.path) ∧ t' = t := by
  unfold Calls addToDirectory
  rw [hnames]
  exact (Prod.mk.injEq ..).to_iff.trans (and_congr eq_comm eq_comm)

/-- A call whose path stays below makes the directories above the place of its entry, as far as it
can, and then it stores the file or fails without a trace. -/
theorem Calls.outcome {names : List String} (hnames : names? e.path = some names)
    (h : Calls root e t r t') :
    ∃ made t₁,
      t.createDirectories ((Path.parent? (names.foldl Path.join root)).getD "") = (made, t₁) ∧
        (r = .error (entryError root e.path (.file none)) ∧ t' = t₁ ∨
          r = .ok () ∧ t₁.store (names.foldl Path.join root) e.content = (true, t')) := by
  unfold Calls addToDirectory at h
  rw [hnames] at h
  obtain ⟨herror, hcreate⟩ | ⟨t₁, hcreate, h⟩ := Run.guarded_eq_iff.1 h
  · exact ⟨false, t', hcreate, .inl ⟨herror, rfl⟩⟩
  · refine ⟨true, t₁, hcreate, ?_⟩
    obtain ⟨herror, hstore⟩ | ⟨t₂, hstore, h⟩ := Run.guarded_eq_iff.1 h
    · exact .inl ⟨herror, FileTree.eq_of_store_eq_false hstore⟩
    · cases h
      exact .inr ⟨rfl, hstore⟩

/-- The texts of a path that name something, in order. -/
def normalNames (path : String) : List String :=
  (Path.pieces path).filter (!Path.isIdle ·)

/-- What a call may do with a directory at `l`. -/
structure Contained (root : String) (l : Location) (e : Entry) (t : FileTree) (r : Written)
    (t' : FileTree) : Prop where
  escapes_iff : r = .error (escape root e.path) ↔ ¬ Path.StaysBelow e.path
  unchanged : ¬ Path.StaysBelow e.path → t' = t
  onTheWay : ChangesOnly (OnTheWay l (normalNames e.path)) t t'
  placed : r = .ok () → normalNames e.path ≠ [] ∧
    t'.find? (l ++ normalNames e.path) = some (.file e.content)
  kept : ∀ l', (r = .ok () → l' ≠ l ++ normalNames e.path) → t'.content? l' = t.content? l'

theorem contained_escaping (hnames : names? e.path = none) :
    Contained root l e t (.error (escape root e.path)) t where
  escapes_iff := by
    rw [← Path.names?_isSome_iff, hnames]
    simp
  unchanged _ := rfl
  onTheWay := .refl _ t
  placed h := by cases h
  kept _ _ := rfl

theorem contained_failing (hbelow : Path.StaysBelow e.path) (hgrows : t.Grows t')
    (habove : ChangesOnly (OnTheWay l (normalNames e.path)) t t') :
    Contained root l e t (.error (entryError root e.path (.file none))) t' where
  escapes_iff := by simp [escape, entryError, hbelow]
  unchanged h := absurd hbelow h
  onTheWay := habove
  placed h := by cases h
  kept l' _ := hgrows.content? l'

theorem contained_stored (hbelow : Path.StaysBelow e.path) (hgrows : t.Grows t')
    (habove : ChangesOnly (OnTheWay l (normalNames e.path)) t t') (hne : normalNames e.path ≠ []) :
    Contained root l e t (.ok ()) (t'.put (l ++ normalNames e.path) (.file e.content)) := by
  have hplace : l ++ normalNames e.path ≠ [] := List.append_ne_nil_of_right_ne_nil _ hne
  have hway : OnTheWay l (normalNames e.path) (l ++ normalNames e.path) :=
    ⟨normalNames e.path, hne, List.prefix_rfl, rfl⟩
  refine ⟨by simp [hbelow], fun h => absurd hbelow h, habove.trans (.put hplace hway),
    fun _ => ⟨hne, ?_⟩, fun l' hl' => ?_⟩
  · rw [FileTree.find?_put _ hplace, if_pos rfl]
  · rw [FileTree.content?_put _ hplace, if_neg (hl' rfl), hgrows.content?]

/-- One call keeps the directory, and changes nothing but on the way to its entry. -/
theorem Calls.contained (h : Calls root e t r t') (hroot : t.StandsAt root l) :
    t'.StandsAt root l ∧ Contained root l e t r t' := by
  by_cases hnone : names? e.path = none
  · obtain ⟨rfl, rfl⟩ := (calls_escaping hnone).1 h
    exact ⟨hroot, contained_escaping hnone⟩
  · obtain ⟨names, hnames⟩ := Option.ne_none_iff_exists'.1 hnone
    have hbelow : Path.StaysBelow e.path := by
      rw [← Path.names?_isSome_iff, hnames]
      rfl
    obtain ⟨rfl, hnamed⟩ := Path.names?_eq_some hnames
    obtain ⟨made, t₁, hcreate, hcase⟩ := h.outcome hnames
    have hgrows := FileTree.grows_createDirectories hcreate
    have hroot₁ := hroot.grows hgrows
    have habove := hroot.changesOnly_createParent hnamed
    rw [hcreate] at habove
    obtain ⟨rfl, rfl⟩ | ⟨rfl, hstore⟩ := hcase
    · exact ⟨hroot₁, contained_failing hbelow hgrows habove⟩
    · obtain ⟨hne, hroot', rfl⟩ := hroot₁.store_eq_true hnamed hstore
      exact ⟨hroot', contained_stored hbelow hgrows habove hne⟩

/-! ## Any calls -/

/-- One call after another, each of which may fail. -/
def CallsEach (root : String) : FileTree → FileTree → Prop :=
  Relation.ReflTransGen fun t t' => ∃ e r, Calls root e t r t'

theorem CallsEach.contained (h : CallsEach root t t') (hroot : t.StandsAt root l) :
    t'.StandsAt root l ∧ ChangesOnly (StrictlyBelow l) t t' := by
  induction h with
  | refl => exact ⟨hroot, .refl _ t⟩
  | tail _ hcall ih =>
    obtain ⟨e, r, hcall⟩ := hcall
    obtain ⟨hroot', hcontained⟩ := hcall.contained ih.1
    exact ⟨hroot', ih.2.trans (hcontained.onTheWay.mono fun _ => OnTheWay.strictlyBelow)⟩

theorem exists_standsAt_of_createDirectories (h : t.createDirectories root = (true, t₀)) :
    ∃ l, t₀.StandsAt root l := by
  by_cases hempty : root = ""
  · exact ⟨[], by rw [FileTree.StandsAt, if_pos hempty]⟩
  · obtain ⟨l, hlead⟩ := FileTree.exists_leadsTo_of_createDirectories hempty h
    exact ⟨l, by rwa [FileTree.StandsAt, if_neg hempty]⟩

/-- After a directory is made, nothing changes but strictly below it, whatever calls come and
whichever of them fail. A call whose path goes up anywhere or starts at the root is refused and
changes nothing. Any other call makes directories on the way from the directory to the names in the
path of its entry, and if it is accepted the entry is found under exactly these. -/
theorem calls_contained (hcreate : t.createDirectories root = (true, t₀)) :
    ∃ l, t₀.StandsAt root l ∧ ∀ t₁, CallsEach root t₀ t₁ →
      t₁.StandsAt root l ∧ ChangesOnly (StrictlyBelow l) t₀ t₁ ∧
        ∀ e r t₂, Calls root e t₁ r t₂ → Contained root l e t₁ r t₂ := by
  obtain ⟨l, hroot⟩ := exists_standsAt_of_createDirectories hcreate
  refine ⟨l, hroot, fun t₁ hcalls => ?_⟩
  obtain ⟨hroot₁, honly⟩ := hcalls.contained hroot
  exact ⟨hroot₁, honly, fun e r t₂ hcall => (hcall.contained hroot₁).2⟩

/-- A tree with a file beside the directory that entries are written into. -/
def besideTree : FileTree :=
  ⟨[(["build", "out"], .directory), (["build"], .directory), (["keep"], .file (.raw [7]))]⟩

/-- A path to the file beside the directory is refused, and then an entry is placed. -/
theorem calls_contained_besideTree :
    (⟨[(["keep"], .file (.raw [7]))]⟩ : FileTree).createDirectories "build/out" =
        (true, besideTree) ∧
      ∃ l t₁ t₂, besideTree.StandsAt "build/out" l ∧
        Calls "build/out" ⟨"a/../../../keep", .raw [1]⟩ besideTree
          (.error (escape "build/out" "a/../../../keep")) t₁ ∧
        ChangesOnly (StrictlyBelow l) besideTree t₁ ∧
        Contained "build/out" l ⟨"./a//B.class", .raw [1]⟩ t₁ (.ok ()) t₂ := by
  have hcreate : (⟨[(["keep"], .file (.raw [7]))]⟩ : FileTree).createDirectories "build/out" =
      (true, besideTree) := by
    decide +kernel
  have hrefused : Calls "build/out" ⟨"a/../../../keep", .raw [1]⟩ besideTree
      (.error (escape "build/out" "a/../../../keep")) besideTree := by
    decide +kernel
  have hplaced : Calls "build/out" ⟨"./a//B.class", .raw [1]⟩ besideTree (.ok ())
      ⟨(["build", "out", "a", "B.class"], .file (.raw [1])) ::
        (["build", "out", "a"], .directory) :: besideTree.nodes⟩ := by
    decide +kernel
  obtain ⟨l, hstands, hcalls⟩ := calls_contained hcreate
  obtain ⟨-, honly, hcontained⟩ := hcalls besideTree (.single ⟨_, _, hrefused⟩)
  exact ⟨hcreate, l, _, _, hstands, hrefused, honly, hcontained _ _ _ hplaced⟩

end Output

end PlatformLink
