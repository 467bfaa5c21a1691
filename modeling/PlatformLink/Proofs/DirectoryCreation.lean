import PlatformLink.Proofs.FileTreeSpec

/-! # Directories made on the way

`Storage.createDirectories` keeps what a tree keeps when one directory is made
(`FileTree.createInnermost_keeps`). Below a directory it makes the directories of some names, and no
other ones, unless a file stands on the way (`FileTree.LeadsTo.exists_createInnermost`). A path
whose directories were made leads to a directory (`FileTree.exists_leadsTo_of_createDirectories`).
-/

namespace PlatformLink
set_option autoImplicit false

namespace FileTree

open PlatformLink.Path (IsName)

variable {t t' : FileTree} {l l' : Location} {path name : String}

/-! ## Directories with those above them -/

/-- What `Storage.createInnermost` does to a tree. -/
def createInnermost (t : FileTree) (paths : List String) : Bool × FileTree :=
  (Storage.createInnermost paths : StateM FileTree Bool).run t

def createDirectories (t : FileTree) (path : String) : Bool × FileTree :=
  t.createInnermost (Path.ancestors path)

theorem createInnermost_cons (t : FileTree) (path : String) (outer : List String) :
    t.createInnermost (path :: outer) =
      match t.makeDirectory path with
      | (.made, t₁) => (true, t₁)
      | (.refused, t₁) => (t₁.isDirectory path, t₁)
      | (.missingParent, t₁) =>
        match t₁.createInnermost outer with
        | (false, t₂) => (false, t₂)
        | (true, t₂) =>
          match t₂.makeDirectory path with
          | (.made, t₃) => (true, t₃)
          | (_, t₃) => (t₃.isDirectory path, t₃) := by
  have hmake (t : FileTree) : (Storage.makeDirectory path : StateM FileTree Making).run t =
      t.makeDirectory path := rfl
  have houter (t : FileTree) : (Storage.createInnermost outer : StateM FileTree Bool).run t =
      t.createInnermost outer := rfl
  rw [createInnermost, Storage.createInnermost, StateT.run_bind, hmake]
  match t.makeDirectory path with
  | (.made, t₁) => rfl
  | (.refused, t₁) => rfl
  | (.missingParent, t₁) =>
    change (Storage.createInnermost outer >>= _ : StateM FileTree Bool).run t₁ = _
    rw [StateT.run_bind, houter]
    dsimp only
    match t₁.createInnermost outer with
    | (false, t₂) => rfl
    | (true, t₂) =>
      change (Storage.makeDirectory path >>= _ : StateM FileTree Bool).run t₂ = _
      rw [StateT.run_bind, hmake]
      dsimp only
      match t₂.makeDirectory path with
      | (.made, t₃) => rfl
      | (.refused, t₃) => rfl
      | (.missingParent, t₃) => rfl

/-- What making one directory of some keeps, making all of them keeps. -/
theorem createInnermost_keeps {R : FileTree → FileTree → Prop} (refl : ∀ t, R t t)
    (trans : ∀ t₁ t₂ t₃, R t₁ t₂ → R t₂ t₃ → R t₁ t₃) {paths : List String}
    (make : ∀ path ∈ paths, ∀ t, R t (t.makeDirectory path).2) (t : FileTree) :
    R t (t.createInnermost paths).2 := by
  induction paths generalizing t with
  | nil => exact refl t
  | cons path outer ih =>
    rw [List.forall_mem_cons] at make
    have ih := ih make.2
    have hmake (t₁ : FileTree) {m : Making} {t₂ : FileTree}
        (h : t₁.makeDirectory path = (m, t₂)) : R t₁ t₂ := by
      have := make.1 t₁
      rwa [h] at this
    rw [createInnermost_cons]
    split
    · rename_i h
      exact hmake t h
    · rename_i h
      exact hmake t h
    · rename_i t₁ h
      have houter := ih t₁
      split
      · rename_i h'
        rw [h'] at houter
        exact trans _ _ _ (hmake t h) houter
      · rename_i t₂ h'
        rw [h'] at houter
        have htwo := trans _ _ _ (hmake t h) houter
        split
        · rename_i h''
          exact trans _ _ _ htwo (hmake t₂ h'')
        · rename_i h''
          exact trans _ _ _ htwo (hmake t₂ h'')

theorem grows_createInnermost {paths : List String} {made : Bool}
    (h : t.createInnermost paths = (made, t')) : t.Grows t' := by
  have hgrows : t.Grows (t.createInnermost paths).2 :=
    createInnermost_keeps .refl (fun _ _ _ => .trans) (fun path _ t => grows_makeDirectory t path) t
  rwa [h] at hgrows

theorem WellFormed.createInnermost (hwell : t.WellFormed) {paths : List String} {made : Bool}
    (h : t.createInnermost paths = (made, t')) : t'.WellFormed := by
  have hkeeps := createInnermost_keeps (R := fun t t' => t.WellFormed → t'.WellFormed)
    (fun _ h => h) (fun _ _ _ h h' hwell => h' (h hwell))
    (fun path (_ : path ∈ paths) _ h => h.makeDirectory path) t
  rw [h] at hkeeps
  exact hkeeps hwell

theorem grows_createDirectories {made : Bool} (h : t.createDirectories path = (made, t')) :
    t.Grows t' :=
  grows_createInnermost h

theorem WellFormed.createDirectories (hwell : t.WellFormed) {made : Bool}
    (h : t.createDirectories path = (made, t')) : t'.WellFormed :=
  hwell.createInnermost h

/-! ## One directory below another -/

theorem exists_eq_dropEmpty_append (pieces : List String) :
    ∃ blanks, pieces = dropEmpty pieces ++ blanks ∧ ∀ piece ∈ blanks, Path.isIdle piece = true := by
  refine ⟨(pieces.reverse.takeWhile (· == "")).reverse, ?_, ?_⟩
  · rw [dropEmpty, ← List.reverse_append, List.takeWhile_append_dropWhile, List.reverse_reverse]
  · intro piece hpiece
    have hempty := List.all_eq_true.1 List.all_takeWhile piece (List.mem_reverse.1 hpiece)
    rw [beq_iff_eq] at hempty
    rw [hempty]
    rfl

theorem dropEmpty_isPrefix (pieces : List String) : dropEmpty pieces <+: pieces := by
  obtain ⟨blanks, hpieces, -⟩ := exists_eq_dropEmpty_append pieces
  exact ⟨blanks, hpieces.symm⟩

theorem dropEmpty_pieces_isPrefix (path : String) :
    dropEmpty (Path.pieces path) <+: Path.trunk path := by
  unfold Path.trunk
  split
  · rename_i hlast
    obtain ⟨front, hfront⟩ := List.getLast?_eq_some_iff.1 hlast
    have hdrop : dropEmpty (front ++ [""]) = dropEmpty front := by simp [dropEmpty]
    rw [hfront, hdrop, List.dropLast_concat]
    exact dropEmpty_isPrefix front
  · exact dropEmpty_isPrefix _

theorem LeadsTo.makeDirectory (h : t.LeadsTo path l) : t.makeDirectory path = (.refused, t) := by
  obtain ⟨hpath, hdescend, hfind⟩ := at?_eq_some_iff.1 h
  obtain ⟨blanks, hpieces, hblanks⟩ := exists_eq_dropEmpty_append (Path.pieces path)
  have hnew : t.newLocation (dropEmpty (Path.pieces path)) = .error .blocked ∨
      t.newLocation (dropEmpty (Path.pieces path)) = .ok l := by
    rw [newLocation]
    split
    · exact .inl rfl
    · rename_i text hlast
      obtain ⟨front, hfront⟩ := List.getLast?_eq_some_iff.1 hlast
      rw [hpieces, hfront, List.append_assoc, descend_append_eq_ok_iff] at hdescend
      obtain ⟨l₀, hl₀, hrest⟩ := hdescend
      obtain ⟨hdirectory, l₁, hnext, hidle⟩ := descend_cons_eq_ok_iff.1 hrest
      have hl := eq_of_descend_idle hblanks hidle
      rw [hfront, List.dropLast_concat, hl₀]
      simp only [bind, Except.bind, hdirectory]
      split
      · exact .inl rfl
      · rename_i hnot
        rw [not_or, not_or] at hnot
        rw [next?, if_neg hnot.1, if_neg hnot.2.1, if_neg hnot.2.2, Option.some.injEq] at hnext
        rw [hl, hnext]
        exact .inr rfl
  have hbind : (piecesOf path >>= fun pieces => t.newLocation (dropEmpty pieces)) =
      t.newLocation (dropEmpty (Path.pieces path)) := by
    rw [piecesOf_eq_ok_iff.2 ⟨hpath, rfl⟩]
    rfl
  rw [FileTree.makeDirectory, hbind]
  rcases hnew with hnew | hnew
  · rw [hnew]
  · rw [hnew]
    simp only [hfind]

theorem dropEmpty_concat (pieces : List String) (hname : name ≠ "") :
    dropEmpty (pieces ++ [name]) = pieces ++ [name] := by
  simp [dropEmpty, hname]

/-- A directory has been made, or stood there. -/
def Makes (t : FileTree) (path : String) (t' : FileTree) : Prop :=
  t.makeDirectory path = (.made, t') ∨
    t.makeDirectory path = (.refused, t') ∧ t'.isDirectory path = true

theorem createInnermost_of_makes {outer : List String} (h : t.Makes path t') :
    t.createInnermost (path :: outer) = (true, t') := by
  rw [createInnermost_cons]
  rcases h with h | ⟨h, hdirectory⟩
  · rw [h]
  · rw [h, ← hdirectory]

theorem createInnermost_of_missing {t₁ : FileTree} {outer : List String}
    (h : t.makeDirectory path = (.missingParent, t)) (houter : t.createInnermost outer = (true, t₁))
    (hmakes : t₁.Makes path t') : t.createInnermost (path :: outer) = (true, t') := by
  rw [createInnermost_cons, h]
  simp only [houter]
  rcases hmakes with hmakes | ⟨hmakes, hdirectory⟩
  · rw [hmakes]
  · rw [hmakes]
    simp only [hdirectory]

/-- Below a directory one more can be made, or stands there, unless a file does. -/
theorem LeadsTo.make_join (h : t.LeadsTo path l) (hname : IsNodeName name)
    (hshort : (Path.join path name).utf8ByteSize ≤ maxPath)
    (hfile : ∀ content, t.find? (l ++ [name]) ≠ some (.file content)) :
    ∃ t', t.Makes (Path.join path name) t' ∧ t'.find? (l ++ [name]) = some .directory ∧
        ∀ l', t'.find? l' = some .directory → t.find? l' = some .directory ∨ l' = l ++ [name] := by
  match hfind : t.find? (l ++ [name]) with
  | some (.file content) => exact absurd hfind (hfile content)
  | some .directory =>
    have hlead := h.join hname hshort hfind
    exact ⟨t, .inr ⟨hlead.makeDirectory, hlead.isDirectory⟩, hfind, fun l' => .inl⟩
  | none =>
    have hpath := h.isPath.join hname hshort
    have hne : l ++ [name] ≠ [] := by simp
    have hplaces : t.Places (dropEmpty (Path.pieces (Path.join path name))) (l ++ [name]) := by
      rw [Path.pieces_join path hname.toIsName, dropEmpty_concat _ hname.ne_empty]
      exact ⟨_, name, l, rfl, h.descend_trunk, h.find?, hname, rfl⟩
    have hnew : (piecesOf (Path.join path name) >>= fun pieces =>
        t.newLocation (dropEmpty pieces)) = .ok (l ++ [name]) :=
      piecesOf_bind_eq_ok_iff.2 ⟨hpath, (newLocation_eq_ok_iff fun piece hpiece =>
        hpath.pieces piece (mem_of_mem_dropEmpty hpiece)).2 hplaces⟩
    refine ⟨t.put (l ++ [name]) .directory, .inl ?_, ?_, fun l' hl' => ?_⟩
    · rw [FileTree.makeDirectory, hnew]
      simp only [hfind]
    · rw [find?_put t hne, if_pos rfl]
    · rw [find?_put t hne] at hl'
      split at hl'
      · exact .inr ‹_›
      · exact .inl hl'

/-! ## Directories below a directory -/

section Below

variable {names : List String}

theorem utf8ByteSize_le_join (directory name : String) :
    directory.utf8ByteSize ≤ (Path.join directory name).utf8ByteSize := by
  obtain ⟨rest, hjoin, -⟩ := Path.exists_join_eq_append directory name
  rw [hjoin, String.utf8ByteSize_append]
  omega

theorem LeadsTo.foldl_join (h : t.LeadsTo path l) (hwell : t.WellFormed)
    (hshort : (names.foldl Path.join path).utf8ByteSize ≤ maxPath)
    (hfind : t.find? (l ++ names) = some .directory) :
    t.LeadsTo (names.foldl Path.join path) (l ++ names) := by
  induction names using List.reverseRecOn with
  | nil => rwa [List.append_nil]
  | append_singleton names name ih =>
    rw [List.foldl_append, List.foldl_cons, List.foldl_nil] at hshort ⊢
    rw [← List.append_assoc] at hfind ⊢
    have hname : IsNodeName name := hwell.isNodeName hfind name (by simp)
    have hparent : t.find? (l ++ names) = some .directory := by
      have := hwell.dropLast hfind
      rwa [List.dropLast_concat] at this
    have hle := utf8ByteSize_le_join (names.foldl Path.join path) name
    exact (ih (Nat.le_trans hle hshort) hparent).join hname hshort hfind

theorem IsPath.foldl_join (h : IsPath path) (hnames : ∀ name ∈ names, IsNodeName name)
    (hshort : (names.foldl Path.join path).utf8ByteSize ≤ maxPath) :
    IsPath (names.foldl Path.join path) := by
  induction names using List.reverseRecOn with
  | nil => exact h
  | append_singleton names name ih =>
    rw [List.forall_mem_append, List.forall_mem_singleton] at hnames
    rw [List.foldl_append, List.foldl_cons, List.foldl_nil] at hshort ⊢
    have hle := utf8ByteSize_le_join (names.foldl Path.join path) name
    exact (ih hnames.1 (Nat.le_trans hle hshort)).join hnames.2 hshort

theorem IsPath.of_append {front back : String} (h : IsPath (front ++ back)) (hne : front ≠ "") :
    IsPath front := by
  refine ⟨hne, fun hnul => h.noNul (by simp [hnul]), ?_⟩
  have hshort := h.short
  rw [String.utf8ByteSize_append] at hshort
  omega

/-- What adds nothing at the end of a path may go. -/
theorem LeadsTo.dropIdle (h : t.LeadsTo path l) {first : String} {rest : List String}
    (htrunk : Path.trunk path = first :: rest) :
    t.LeadsTo (Path.assemble first (Path.dropIdle rest)) l := by
  obtain ⟨idle, hrest, hidle⟩ := Path.exists_eq_dropIdle_append rest
  obtain ⟨blanks, hblanks, -⟩ := Path.exists_pieces_eq_trunk_append path
  have hsplit : Path.pieces path = first :: (Path.dropIdle rest ++ (idle ++ blanks)) := by
    rw [← List.append_assoc, ← hrest, ← List.cons_append, ← htrunk, hblanks]
  have hne : Path.assemble first (Path.dropIdle rest) ≠ "" := by
    refine Path.assemble_ne_empty fun text htext => ?_
    have hmem : text ∈ Path.pieces path := by
      rw [hsplit, ← List.cons_append]
      exact List.mem_append_left _ htext
    exact Path.slashless_of_mem_pieces hmem
  have hpath : IsPath (Path.assemble first (Path.dropIdle rest)) := by
    obtain ⟨more, hmore⟩ := Path.exists_eq_assemble_append h.isPath.ne_empty hsplit
    have := h.isPath
    rw [hmore] at this
    exact this.of_append hne
  have hdescend := h.descend_trunk
  rw [htrunk, hrest, ← List.cons_append, descend_append_eq_ok_iff] at hdescend
  obtain ⟨l₀, hl₀, hl⟩ := hdescend
  rw [← eq_of_descend_idle hidle hl,
    ← Path.trunk_assemble_dropIdle htrunk List.prefix_rfl] at hl₀
  -- an empty text at the end of the new path leads back to where its trunk does
  obtain ⟨ends, hends, hempty⟩ :=
    Path.exists_pieces_eq_trunk_append (Path.assemble first (Path.dropIdle rest))
  refine at?_eq_some_iff.2 ⟨hpath, ?_, h.find?⟩
  rw [hends, descend_append_eq_ok_iff]
  exact ⟨l, hl₀, descend_idle h.find? fun blank hblank => by rw [hempty blank hblank]; rfl⟩

theorem LeadsTo.exists_parent? (h : t.LeadsTo path l) (hnames : ∀ name ∈ names, IsName name)
    (hname : IsName name) :
    ∃ parent, Path.parent? (Path.join (names.foldl Path.join path) name) = some parent ∧
      (names = [] → t.LeadsTo parent l) ∧ (names ≠ [] → parent = names.foldl Path.join path) := by
  obtain ⟨first, rest, htrunk⟩ := Path.exists_trunk_eq_cons h.isPath.ne_empty
  rcases List.eq_nil_or_concat names with rfl | ⟨front, inner, rfl⟩
  · exact ⟨_, Path.parent?_join hname htrunk, fun _ => h.dropIdle htrunk,
      fun hne => absurd rfl hne⟩
  · rw [List.concat_eq_append, List.forall_mem_append, List.forall_mem_singleton] at hnames
    have hfront : Path.trunk (front.foldl Path.join path) = first :: (rest ++ front) := by
      rw [Path.trunk_foldl_join path hnames.1, htrunk, List.cons_append]
    rw [List.concat_eq_append, List.foldl_append, List.foldl_cons, List.foldl_nil]
    exact ⟨_, Path.parent?_join_join hnames.2 hname hfront, fun hnil => by simp at hnil,
      fun _ => rfl⟩

/-- A name joined to a path that leads nowhere yet. -/
theorem makeDirectory_missing {front : List String} (hpath : IsPath path)
    (hname : IsName name) (hpieces : Path.pieces path = front ++ [name])
    (hfront : t.descend [] front = .error .missing ∨
      ∃ l, t.descend [] front = .ok l ∧ t.find? l = none) :
    t.makeDirectory path = (.missingParent, t) := by
  have hnew : t.newLocation (dropEmpty (Path.pieces path)) = .error .missing := by
    rw [hpieces, dropEmpty_concat _ hname.ne_empty, newLocation, List.getLast?_concat]
    dsimp only
    rw [List.dropLast_concat]
    rcases hfront with hfront | ⟨l, hfront, hfind⟩
    · rw [hfront]
      rfl
    · rw [hfront]
      simp only [bind, Except.bind, hfind]
  have hbind : (piecesOf path >>= fun pieces => t.newLocation (dropEmpty pieces)) =
      .error .missing := by
    rw [piecesOf_eq_ok_iff.2 ⟨hpath, rfl⟩, ← hnew]
    rfl
  rw [makeDirectory, hbind]

/-- Where a directory is missing on the way, and no file stands there, none can be made yet. -/
theorem LeadsTo.makeDirectory_missing (h : t.LeadsTo path l)
    (hnames : ∀ name ∈ names, IsNodeName name) (hname : IsNodeName name)
    (hpath : IsPath (Path.join (names.foldl Path.join path) name))
    (hfile : ∀ front content, front <+: names → t.find? (l ++ front) ≠ some (.file content))
    (hfind : t.find? (l ++ names) = none) :
    t.makeDirectory (Path.join (names.foldl Path.join path) name) = (.missingParent, t) := by
  refine FileTree.makeDirectory_missing hpath hname.toIsName
    (Path.pieces_join _ hname.toIsName) ?_
  rw [Path.trunk_foldl_join path fun text htext => (hnames text htext).toIsName,
    descend_append, h.descend_trunk]
  rcases descend_names hnames hfile with hdescend | hdescend
  · exact .inr ⟨_, hdescend, hfind⟩
  · exact .inl hdescend

/-- In a tree that has grown a directory of one more name is made where the names before it are a
directory by now. -/
theorem LeadsTo.exists_makes {t₁ : FileTree} (h : t.LeadsTo path l) (hgrows : t.Grows t₁)
    (hwell₁ : t₁.WellFormed) (hname : IsNodeName name)
    (hshort : (Path.join (names.foldl Path.join path) name).utf8ByteSize ≤ maxPath)
    (hfile : ∀ content, t.find? (l ++ (names ++ [name])) ≠ some (.file content))
    (hdirectory : t₁.find? (l ++ names) = some .directory) :
    ∃ t', t₁.Makes (Path.join (names.foldl Path.join path) name) t' ∧
      t'.find? (l ++ (names ++ [name])) = some .directory ∧
        ∀ l', t'.find? l' = some .directory →
          t₁.find? l' = some .directory ∨ l' = l ++ (names ++ [name]) := by
  have hle := utf8ByteSize_le_join (names.foldl Path.join path) name
  have hlead := (hgrows.leadsTo h).foldl_join hwell₁ (Nat.le_trans hle hshort) hdirectory
  rw [← List.append_assoc] at hfile ⊢
  refine hlead.make_join hname hshort fun content hfind => ?_
  exact (hgrows.adds _ _ hfind).elim (hfile content) (by simp)

/-- Some names below a directory become directories, and with them those on the way and no other
ones, unless a file stands on the way. -/
theorem LeadsTo.exists_createInnermost (h : t.LeadsTo path l) (hwell : t.WellFormed)
    (hnames : ∀ name ∈ names, IsNodeName name)
    (hshort : (names.foldl Path.join path).utf8ByteSize ≤ maxPath)
    (hfile : ∀ front content, front <+: names → t.find? (l ++ front) ≠ some (.file content))
    {fuel : Nat} (hfuel : names.length < fuel) :
    ∃ t', t.createInnermost (Path.ancestorsWithin fuel (names.foldl Path.join path)) = (true, t') ∧
      t'.find? (l ++ names) = some .directory ∧
        ∀ l', t'.find? l' = some .directory → t.find? l' = some .directory ∨
          ∃ front, front <+: names ∧ l' = l ++ front := by
  obtain ⟨n, rfl⟩ := Nat.exists_eq_succ_of_ne_zero (Nat.ne_of_gt (Nat.zero_lt_of_lt hfuel))
  induction names using List.reverseRecOn generalizing n with
  | nil =>
    have hancestors : ∃ outer, Path.ancestorsWithin (n + 1) path = path :: outer := by
      rw [Path.ancestorsWithin, if_neg h.isPath.ne_empty]
      split <;> exact ⟨_, rfl⟩
    obtain ⟨outer, houter⟩ := hancestors
    refine ⟨t, ?_, by rw [List.append_nil]; exact h.find?, fun l' => .inl⟩
    rw [List.foldl_nil, houter, createInnermost_cons, h.makeDirectory, ← h.isDirectory]
  | append_singleton names name ih =>
    rw [List.forall_mem_append, List.forall_mem_singleton] at hnames
    rw [List.foldl_append, List.foldl_cons, List.foldl_nil] at hshort ⊢
    rw [List.length_append, List.length_singleton] at hfuel
    have hle := utf8ByteSize_le_join (names.foldl Path.join path) name
    have hleading : names <+: names ++ [name] := List.prefix_append _ _
    have hlast : ∀ content, t.find? (l ++ (names ++ [name])) ≠ some (.file content) :=
      fun content => hfile _ content List.prefix_rfl
    have hfile' : ∀ front content, front <+: names →
        t.find? (l ++ front) ≠ some (.file content) :=
      fun front content hfront => hfile front content (hfront.trans hleading)
    obtain ⟨parent, hparent, -, hinner⟩ := h.exists_parent?
      (fun text htext => (hnames.1 text htext).toIsName) hnames.2.toIsName
    have hpath : IsPath (Path.join (names.foldl Path.join path) name) :=
      (h.isPath.foldl_join hnames.1 (Nat.le_trans hle hshort)).join hnames.2 hshort
    rw [Path.ancestorsWithin, if_neg hpath.ne_empty, hparent]
    dsimp only
    -- what the names before the last one lead to decides whether more is to be made first
    by_cases hfind : t.find? (l ++ names) = none
    · have hne : names ≠ [] := by
        rintro rfl
        rw [List.append_nil, h.find?] at hfind
        cases hfind
      obtain ⟨n, rfl⟩ := Nat.exists_eq_succ_of_ne_zero (n := n) (by omega)
      obtain ⟨t₁, hcreate, hdirectory, hframe₁⟩ :=
        ih hnames.1 (Nat.le_trans hle hshort) hfile' n (by omega)
      rw [← hinner hne] at hcreate
      have hmissing := h.makeDirectory_missing hnames.1 hnames.2 hpath hfile' hfind
      obtain ⟨t', hmakes, hnew, hframe⟩ := h.exists_makes (grows_createInnermost hcreate)
        (hwell.createInnermost hcreate) hnames.2 hshort hlast hdirectory
      refine ⟨t', createInnermost_of_missing hmissing hcreate hmakes, hnew, fun l' hl' => ?_⟩
      rcases hframe l' hl' with hl' | heq
      · obtain hold | ⟨front, hfront, heq⟩ := hframe₁ l' hl'
        · exact .inl hold
        · exact .inr ⟨front, hfront.trans hleading, heq⟩
      · exact .inr ⟨_, List.prefix_rfl, heq⟩
    · have hfind : t.find? (l ++ names) = some .directory := by
        obtain ⟨node, hnode⟩ := Option.ne_none_iff_exists'.1 hfind
        cases node with
        | directory => exact hnode
        | file content => exact absurd hnode (hfile names content hleading)
      obtain ⟨t', hmakes, hnew, hframe⟩ :=
        h.exists_makes (.refl t) hwell hnames.2 hshort hlast hfind
      exact ⟨t', createInnermost_of_makes hmakes, hnew, fun l' hl' =>
        (hframe l' hl').imp_right fun heq => ⟨_, List.prefix_rfl, heq⟩⟩

/-- What stands in a directory, and no file on the way to it: the directories on the way can be
made. -/
theorem LeadsTo.exists_createParent (h : t.LeadsTo path l) (hwell : t.WellFormed)
    (hnames : ∀ name ∈ names, IsNodeName name) (hname : IsNodeName name)
    (hshort : (Path.join (names.foldl Path.join path) name).utf8ByteSize ≤ maxPath)
    (hfile : ∀ front content, front <+: names → t.find? (l ++ front) ≠ some (.file content)) :
    ∃ t', t.createDirectories
        ((Path.parent? (Path.join (names.foldl Path.join path) name)).getD "") = (true, t') ∧
      t'.find? (l ++ names) = some .directory ∧
        ∀ l', t'.find? l' = some .directory → t.find? l' = some .directory ∨
          ∃ front, front <+: names ∧ l' = l ++ front := by
  obtain ⟨parent, hparent, hempty, hinner⟩ := h.exists_parent?
    (fun text htext => (hnames text htext).toIsName) hname.toIsName
  rw [hparent, Option.getD_some, createDirectories, Path.ancestors]
  by_cases hne : names = []
  · subst hne
    have hlead : t.LeadsTo (([] : List String).foldl Path.join parent) l := hempty rfl
    exact LeadsTo.exists_createInnermost hlead hwell hnames hlead.isPath.short hfile (by simp)
  · rw [hinner hne]
    have hlength := Path.length_le_foldl_join path fun text htext => (hnames text htext).ne_empty
    exact h.exists_createInnermost hwell hnames
      (Nat.le_trans (utf8ByteSize_le_join _ name) hshort) hfile (by omega)

end Below

/-! ## The directory itself -/

theorem exists_leadsTo_of_made (h : t.makeDirectory path = (.made, t')) :
    ∃ l, t'.LeadsTo path l := by
  unfold makeDirectory at h
  split at h
  next => cases h
  next => cases h
  next l hnew =>
    obtain ⟨hpath, hnew⟩ := piecesOf_bind_eq_ok_iff.1 hnew
    have hplaces := (newLocation_eq_ok_iff fun piece hpiece =>
      hpath.pieces piece (mem_of_mem_dropEmpty hpiece)).1 hnew
    have hne := hplaces.ne_nil
    split at h
    next => cases h
    next hfind =>
      cases h
      obtain ⟨front, name, l₀, hsplit, hdescend, hdirectory, hname, rfl⟩ := hplaces
      -- The new directory stands where the path leads without the slashes at its end, and these do
      -- not lead on from it.
      obtain ⟨blanks, hpieces, hblanks⟩ := exists_eq_dropEmpty_append (Path.pieces path)
      have hkeep : ∀ l', t.find? l' = some .directory →
          (t.put (l₀ ++ [name]) .directory).find? l' = some .directory :=
        fun l' => t.directory_put hne (by simp [hfind])
      have hnew : (t.put (l₀ ++ [name]) .directory).find? (l₀ ++ [name]) = some .directory := by
        rw [find?_put t hne, if_pos rfl]
      refine ⟨l₀ ++ [name], at?_eq_some_iff.2 ⟨hpath, ?_, hnew⟩⟩
      rw [hpieces, hsplit, List.append_assoc, descend_append_eq_ok_iff]
      exact ⟨l₀, descend_mono hkeep hdescend, descend_cons_eq_ok_iff.2
        ⟨hkeep l₀ hdirectory, _, next?_name hname, descend_idle hnew hblanks⟩⟩

theorem exists_leadsTo_of_isDirectory (h : t.isDirectory path = true) : ∃ l, t.LeadsTo path l := by
  unfold isDirectory at h
  rw [beq_iff_eq, Option.map_eq_some_iff] at h
  obtain ⟨⟨l, n⟩, hat, rfl⟩ := h
  exact ⟨l, hat⟩

/-- A directory that was to be made is there afterwards. -/
theorem exists_leadsTo_of_createDirectories (hne : path ≠ "")
    (h : t.createDirectories path = (true, t')) : ∃ l, t'.LeadsTo path l := by
  have hancestors : ∃ outer, Path.ancestors path = path :: outer := by
    rw [Path.ancestors, Path.ancestorsWithin, if_neg hne]
    split
    · exact ⟨_, rfl⟩
    · exact ⟨[], rfl⟩
  obtain ⟨outer, houter⟩ := hancestors
  rw [createDirectories, houter, createInnermost_cons] at h
  have hstands {t₁ : FileTree} (hthere : (t₁.isDirectory path, t₁) = (true, t')) :
      ∃ l, t'.LeadsTo path l := by
    rw [Prod.mk.injEq] at hthere
    obtain ⟨hdirectory, rfl⟩ := hthere
    exact exists_leadsTo_of_isDirectory hdirectory
  split at h
  next t₁ hmade =>
    cases h
    exact exists_leadsTo_of_made hmade
  next => exact hstands h
  next t₁ _ =>
    split at h
    next => cases h
    next t₂ _ =>
      split at h
      next t₃ hmade =>
        cases h
        exact exists_leadsTo_of_made hmade
      next => exact hstands h

/-- A path from the root leads where the one without its slash does. -/
example : (⟨[]⟩ : FileTree).createDirectories "/build//out" =
    (true, ⟨[(["build", "out"], .directory), (["build"], .directory)]⟩) := by
  decide +kernel

end FileTree

end PlatformLink
