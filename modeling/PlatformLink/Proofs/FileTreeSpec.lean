import Mathlib.Data.List.Induction
import Mathlib.Data.List.Nodup
import PlatformLink.FileTree
import PlatformLink.Proofs.Grammar
import PlatformLink.Proofs.PathText

/-! # What file trees keep

A tree that grows by what a run asks of it stays one (`FileTree.WellFormed`): every node has one
entry and lies in a directory. Names lead below the location they are walked from
(`FileTree.eq_append_of_descend`). Making directories adds some and leaves everything else as it is
(`FileTree.Grows`), and storing a file changes one location (`FileTree.store_eq_true_iff`).
-/

namespace PlatformLink
set_option autoImplicit false

namespace FileTree

open PlatformLink.Path (IsName)

variable {t t' : FileTree} {l l' : Location} {n : Node} {path : String}

/-! ## Nodes -/

@[simp] theorem find?_nil (t : FileTree) : t.find? [] = some .directory := rfl

theorem lookup_filter_ne (nodes : List (Location × Node)) (l l' : Location) :
    (nodes.filter fun entry => entry.1 != l).lookup l' =
      if l' = l then none else nodes.lookup l' := by
  induction nodes with
  | nil => simp
  | cons entry nodes ih =>
    obtain ⟨l₀, n₀⟩ := entry
    by_cases h0 : l₀ = l
    · rw [List.filter_cons_of_neg (by simpa using h0), ih, List.lookup_cons, h0]
      by_cases h : l' = l
      · rw [if_pos h, if_pos h]
      · rw [if_neg h, if_neg h, beq_false_of_ne h]
    · rw [List.filter_cons_of_pos (by simpa using h0), List.lookup_cons, ih, List.lookup_cons]
      by_cases h : l' = l
      · rw [h, beq_false_of_ne (Ne.symm h0), if_pos rfl]
      · rw [if_neg h, if_neg h]

theorem find?_put (t : FileTree) (hl : l ≠ []) (n : Node) (l' : Location) :
    (t.put l n).find? l' = if l' = l then some n else t.find? l' := by
  unfold find? put
  by_cases hempty : l' = []
  · rw [hempty, if_neg (Ne.symm hl)]
    rfl
  · have hfalse : ¬ l'.isEmpty = true := by simpa using hempty
    rw [if_neg hfalse, if_neg hfalse, List.lookup_cons, lookup_filter_ne]
    by_cases h : l' = l
    · simp [h]
    · rw [if_neg h, if_neg h, beq_false_of_ne h]

theorem directory_put (t : FileTree) (hl : l ≠ []) (hfind : t.find? l ≠ some .directory) {n : Node}
    {l' : Location} (h : t.find? l' = some .directory) :
    (t.put l n).find? l' = some .directory := by
  rw [find?_put t hl, if_neg]
  · exact h
  · rintro rfl
    exact hfind h

/-- What a file holds at a location. -/
def content? (t : FileTree) (l : Location) : Option Content :=
  match t.find? l with
  | some (.file content) => some content
  | _ => none

theorem content?_eq_some_iff {content : Content} :
    t.content? l = some content ↔ t.find? l = some (.file content) := by
  unfold content?
  split <;> simp_all

theorem content?_put (t : FileTree) (hl : l ≠ []) (content : Content) (l' : Location) :
    (t.put l (.file content)).content? l' = if l' = l then some content else t.content? l' := by
  unfold content?
  rw [find?_put t hl]
  by_cases h : l' = l
  · rw [if_pos h, if_pos h]
  · rw [if_neg h, if_neg h]

/-! ## Well-formed trees -/

/-- A name that a node can have. -/
structure IsNodeName (name : String) : Prop extends IsName name where
  noNul : '\x00' ∉ name.toList
  short : name.utf8ByteSize ≤ maxName

/-- Every node has one entry, a proper location, and a directory it lies in. -/
structure WellFormed (t : FileTree) : Prop where
  nodup : (t.nodes.map Prod.fst).Nodup
  ne_nil : ∀ entry ∈ t.nodes, entry.1 ≠ []
  names : ∀ entry ∈ t.nodes, ∀ name ∈ entry.1, IsNodeName name
  closed : ∀ entry ∈ t.nodes, t.find? entry.1.dropLast = some .directory

theorem find?_of_ne_nil (hl : l ≠ []) : t.find? l = t.nodes.lookup l := by
  rw [find?, if_neg (by simpa using hl)]

theorem mem_of_find? (hl : l ≠ []) (h : t.find? l = some n) : (l, n) ∈ t.nodes := by
  rw [find?_of_ne_nil hl] at h
  obtain ⟨front, back, hnodes, -⟩ := List.lookup_eq_some_iff.1 h
  rw [hnodes]
  simp

theorem lookup_of_mem {nodes : List (Location × Node)} (hnodup : (nodes.map Prod.fst).Nodup)
    (h : (l, n) ∈ nodes) : nodes.lookup l = some n := by
  induction nodes with
  | nil => cases h
  | cons entry nodes ih =>
    rw [List.map_cons, List.nodup_cons] at hnodup
    rw [List.lookup_cons]
    rcases List.mem_cons.1 h with rfl | h
    · rw [BEq.rfl]
    · have hne : l ≠ entry.1 := by
        rintro rfl
        exact hnodup.1 (List.mem_map.2 ⟨_, h, rfl⟩)
      rw [beq_false_of_ne hne]
      exact ih hnodup.2 h

namespace WellFormed

theorem find?_of_mem (h : t.WellFormed) (hmem : (l, n) ∈ t.nodes) : t.find? l = some n := by
  rw [find?_of_ne_nil (h.ne_nil _ hmem)]
  exact lookup_of_mem h.nodup hmem

theorem isNodeName (h : t.WellFormed) (hfind : t.find? l = some n) :
    ∀ name ∈ l, IsNodeName name := by
  by_cases hl : l = []
  · simp [hl]
  · exact h.names _ (mem_of_find? hl hfind)

theorem dropLast (h : t.WellFormed) (hfind : t.find? l = some n) :
    t.find? l.dropLast = some .directory := by
  by_cases hl : l = []
  · simp [hl]
  · exact h.closed _ (mem_of_find? hl hfind)

/-- Whatever a node lies below is a directory. -/
theorem directory_of_append (h : t.WellFormed) (l more : Location) (hmore : more ≠ [])
    (hfind : t.find? (l ++ more) = some n) : t.find? l = some .directory := by
  induction more using List.reverseRecOn generalizing n with
  | nil => exact absurd rfl hmore
  | append_singleton more name ih =>
    have hparent := h.dropLast hfind
    rw [← List.append_assoc, List.dropLast_concat] at hparent
    by_cases hnil : more = []
    · rwa [hnil, List.append_nil] at hparent
    · exact ih hnil hparent

theorem put (h : t.WellFormed) (hl : l ≠ []) (hnames : ∀ name ∈ l, IsNodeName name)
    (hparent : t.find? l.dropLast = some .directory)
    (hn : n = .directory ∨ t.find? l ≠ some .directory) : (t.put l n).WellFormed where
  nodup := by
    rw [FileTree.put, List.map_cons, List.nodup_cons]
    refine ⟨by simp, h.nodup.sublist (List.filter_sublist.map _)⟩
  ne_nil := by
    rw [FileTree.put, List.forall_mem_cons]
    exact ⟨hl, fun entry hentry => h.ne_nil entry (List.mem_filter.1 hentry).1⟩
  names := by
    rw [FileTree.put, List.forall_mem_cons]
    exact ⟨hnames, fun entry hentry => h.names entry (List.mem_filter.1 hentry).1⟩
  closed := by
    have hne : l.dropLast ≠ l := by
      intro heq
      have hlength := congrArg List.length heq
      rw [List.length_dropLast] at hlength
      have := List.length_pos_iff.2 hl
      omega
    have hput : ∀ l₀, t.find? l₀ = some .directory → (l₀ = l → n = .directory) →
        (t.put l n).find? l₀ = some .directory := by
      intro l₀ hfind hl₀
      rw [find?_put t hl]
      split
      · rw [hl₀ ‹_›]
      · exact hfind
    intro entry hentry
    rcases List.mem_cons.1 hentry with rfl | hentry
    · exact hput _ hparent fun heq => absurd heq hne
    · have hdirectory := h.closed entry (List.mem_filter.1 hentry).1
      refine hput _ hdirectory fun heq => ?_
      rw [heq] at hdirectory
      exact hn.resolve_right fun hnot => hnot hdirectory

theorem mem_filesBelow_iff (h : t.WellFormed) {names : List String} {content : Content} :
    (names, content) ∈ t.filesBelow l ↔ t.content? (l ++ names) = some content := by
  rw [content?_eq_some_iff, filesBelow, List.mem_filterMap]
  constructor
  · rintro ⟨⟨l₀, node⟩, hmem, hentry⟩
    have hfind := h.find?_of_mem hmem
    cases node with
    | directory => cases hentry
    | file content₀ =>
      dsimp only at hentry
      split at hentry
      · rename_i hleading
        cases hentry
        obtain ⟨names, rfl⟩ := List.isPrefixOf_iff_prefix.1 hleading
        rwa [List.drop_left]
      · cases hentry
  · intro hfind
    have hne : l ++ names ≠ [] := by
      intro hnil
      rw [hnil] at hfind
      cases hfind
    refine ⟨_, mem_of_find? hne hfind, ?_⟩
    dsimp only
    rw [if_pos (List.isPrefixOf_iff_prefix.2 (List.prefix_append l names)), List.drop_left]

end WellFormed

/-! ## Where a path leads -/

/-- The location that one text between slashes leads to from another one. -/
def next? (l : Location) (piece : String) : Option Location :=
  if Path.isIdle piece then some l
  else if piece = ".." then if l.isEmpty then none else some l.dropLast
  else if maxName < piece.utf8ByteSize then none
  else some (l ++ [piece])

theorem next?_idle {piece : String} (h : Path.isIdle piece = true) : next? l piece = some l :=
  if_pos h

theorem next?_name {name : String} (h : IsNodeName name) : next? l name = some (l ++ [name]) := by
  have hshort : ¬ maxName < name.utf8ByteSize := Nat.not_lt.2 h.short
  rw [next?, if_neg (by simp [h.solid]), if_neg h.notUp, if_neg hshort]

theorem eq_append_of_next? {name : String} (h : IsName name) (hnext : next? l name = some l') :
    l' = l ++ [name] := by
  rw [next?, if_neg (by simp [h.solid]), if_neg h.notUp] at hnext
  split at hnext
  · cases hnext
  · exact (Option.some.inj hnext).symm

/-- The first step of a path does not depend on the tree but for the directory it starts from. -/
theorem descend_cons (t : FileTree) (l : Location) (piece : String) (rest : List String) :
    t.descend l (piece :: rest) =
      match t.find? l with
      | none => .error .missing
      | some (.file _) => .error .blocked
      | some .directory =>
        match next? l piece with
        | none => .error .blocked
        | some l₀ => t.descend l₀ rest := by
  rw [descend, next?]
  repeat' split
  all_goals simp_all

theorem descend_cons_eq_ok_iff {piece : String} {rest : List String} :
    t.descend l (piece :: rest) = .ok l' ↔
      t.find? l = some .directory ∧ ∃ l₀, next? l piece = some l₀ ∧ t.descend l₀ rest = .ok l' := by
  rw [descend_cons]
  split
  · simp_all
  · simp_all
  · split <;> simp_all

theorem eq_append_of_descend {names : List String} (hnames : ∀ name ∈ names, IsName name)
    (h : t.descend l names = .ok l') : l' = l ++ names := by
  induction names generalizing l with
  | nil => rw [List.append_nil, Except.ok.inj h]
  | cons name names ih =>
    rw [List.forall_mem_cons] at hnames
    obtain ⟨-, l₀, hnext, hrest⟩ := descend_cons_eq_ok_iff.1 h
    rw [ih hnames.2 hrest, eq_append_of_next? hnames.1 hnext, List.append_assoc,
      List.singleton_append]

theorem descend_append (t : FileTree) (l : Location) (front back : List String) :
    t.descend l (front ++ back) = t.descend l front >>= fun l' => t.descend l' back := by
  induction front generalizing l with
  | nil => rfl
  | cons piece rest ih =>
    rw [List.cons_append, descend_cons, descend_cons]
    split
    · rfl
    · rfl
    · split
      · rfl
      · exact ih _

theorem descend_append_eq_ok_iff {front back : List String} :
    t.descend l (front ++ back) = .ok l' ↔
      ∃ l₀, t.descend l front = .ok l₀ ∧ t.descend l₀ back = .ok l' := by
  rw [descend_append, bind_eq_ok_iff]

/-- Whatever the front of a path leads to on the way to a directory is one. -/
theorem directory_of_descend_front {front whole : List String} {l₀ : Location}
    (hleading : front <+: whole) (h : t.descend l₀ whole = .ok l)
    (hfind : t.find? l = some .directory) (hfront : t.descend l₀ front = .ok l') :
    t.find? l' = some .directory := by
  obtain ⟨back, rfl⟩ := hleading
  obtain ⟨l₁, hl₁, hback⟩ := descend_append_eq_ok_iff.1 h
  obtain rfl := Except.ok.inj (hl₁.symm.trans hfront)
  cases back with
  | nil => rwa [Except.ok.inj hback]
  | cons piece back => exact (descend_cons_eq_ok_iff.1 hback).1

theorem descend_idle {pieces : List String} (hfind : t.find? l = some .directory)
    (hidle : ∀ piece ∈ pieces, Path.isIdle piece = true) : t.descend l pieces = .ok l := by
  induction pieces with
  | nil => rfl
  | cons piece rest ih =>
    rw [List.forall_mem_cons] at hidle
    exact descend_cons_eq_ok_iff.2 ⟨hfind, l, next?_idle hidle.1, ih hidle.2⟩

theorem eq_of_descend_idle {pieces : List String}
    (hidle : ∀ piece ∈ pieces, Path.isIdle piece = true) (h : t.descend l pieces = .ok l') :
    l' = l := by
  induction pieces generalizing l with
  | nil => exact (Except.ok.inj h).symm
  | cons piece rest ih =>
    rw [List.forall_mem_cons] at hidle
    obtain ⟨-, l₀, hnext, hrest⟩ := descend_cons_eq_ok_iff.1 h
    rw [next?_idle hidle.1, Option.some.injEq] at hnext
    rw [ih hidle.2 hrest, hnext]

/-- Names on whose way no file stands lead below a location, or a directory is missing there. -/
theorem descend_names {names : List String} (hnames : ∀ name ∈ names, IsNodeName name)
    (hfile : ∀ front content, front <+: names → t.find? (l ++ front) ≠ some (.file content)) :
    t.descend l names = .ok (l ++ names) ∨ t.descend l names = .error .missing := by
  induction names generalizing l with
  | nil => exact .inl (by rw [List.append_nil]; rfl)
  | cons name names ih =>
    rw [List.forall_mem_cons] at hnames
    match hfind : t.find? l with
    | none =>
      right
      rw [descend_cons, hfind]
    | some (.file content) =>
      refine absurd ?_ (hfile [] content (List.nil_prefix))
      rwa [List.append_nil]
    | some .directory =>
      have hstep : t.descend l (name :: names) = t.descend (l ++ [name]) names := by
        rw [descend_cons, hfind, next?_name hnames.1]
      rw [hstep]
      have hrest := ih (l := l ++ [name]) hnames.2 fun front content hfront => by
        rw [List.append_assoc]
        exact hfile (name :: front) content (List.prefix_cons_inj name |>.2 hfront)
      rwa [List.append_assoc] at hrest

/-- A path text that can lead somewhere. -/
structure IsPath (path : String) : Prop where
  ne_empty : path ≠ ""
  noNul : '\x00' ∉ path.toList
  short : path.utf8ByteSize ≤ maxPath

theorem piecesOf_eq_ok_iff {pieces : List String} :
    piecesOf path = .ok pieces ↔ IsPath path ∧ Path.pieces path = pieces := by
  unfold piecesOf
  constructor
  · intro h
    split at h
    · cases h
    · rename_i hempty
      split at h
      · cases h
      · rename_i htext
        rw [not_or, Nat.not_lt, List.contains_iff_mem] at htext
        exact ⟨⟨hempty, htext.1, htext.2⟩, Except.ok.inj h⟩
  · rintro ⟨h, rfl⟩
    have htext : ¬ (path.toList.contains '\x00' = true ∨ maxPath < path.utf8ByteSize) := by
      rw [not_or, Nat.not_lt, List.contains_iff_mem]
      exact ⟨h.noNul, h.short⟩
    rw [if_neg h.ne_empty, if_neg htext]

theorem at?_eq_some_iff : t.at? path = some (l, n) ↔
    IsPath path ∧ t.descend [] (Path.pieces path) = .ok l ∧ t.find? l = some n := by
  unfold at?
  constructor
  · intro h
    split at h
    · rename_i pieces hpieces
      obtain ⟨hpath, rfl⟩ := piecesOf_eq_ok_iff.1 hpieces
      split at h
      · rename_i l₀ hdescend
        rw [Option.map_eq_some_iff] at h
        obtain ⟨n₀, hfind, h⟩ := h
        cases h
        exact ⟨hpath, hdescend, hfind⟩
      · cases h
    · cases h
  · rintro ⟨hpath, hdescend, hfind⟩
    rw [piecesOf_eq_ok_iff.2 ⟨hpath, rfl⟩]
    simp only [hdescend, hfind, Option.map_some]

/-- A directory stands at a path. -/
def LeadsTo (t : FileTree) (path : String) (l : Location) : Prop :=
  t.at? path = some (l, .directory)

theorem LeadsTo.isPath (h : t.LeadsTo path l) : IsPath path := (at?_eq_some_iff.1 h).1

theorem LeadsTo.find? (h : t.LeadsTo path l) : t.find? l = some .directory :=
  (at?_eq_some_iff.1 h).2.2

theorem LeadsTo.isDirectory (h : t.LeadsTo path l) : t.isDirectory path = true := by
  rw [FileTree.isDirectory, h]
  rfl

/-- The files that are seen below a directory have names. -/
theorem WellFormed.names_of_look (h : t.WellFormed) {files : List (List String × Content)}
    (hlook : t.look path = .directory files) :
    ∀ f ∈ files, f.1 ≠ [] ∧ ∀ name ∈ f.1, IsName name := by
  unfold look at hlook
  split at hlook
  next => cases hlook
  next l hat =>
    cases hlook
    rintro ⟨names, content⟩ hmem
    have hlead : t.LeadsTo path l := hat
    rw [h.mem_filesBelow_iff, content?_eq_some_iff] at hmem
    refine ⟨?_, fun name hname =>
      (h.isNodeName hmem name (List.mem_append_right l hname)).toIsName⟩
    rintro rfl
    rw [List.append_nil, hlead.find?] at hmem
    cases hmem
  next => cases hlook

theorem LeadsTo.descend_trunk (h : t.LeadsTo path l) : t.descend [] (Path.trunk path) = .ok l := by
  obtain ⟨-, hdescend, -⟩ := at?_eq_some_iff.1 h
  unfold Path.trunk
  split
  · rename_i hlast
    obtain ⟨front, hfront⟩ := List.getLast?_eq_some_iff.1 hlast
    rw [hfront] at hdescend
    obtain ⟨l₀, hl₀, hempty⟩ := descend_append_eq_ok_iff.1 hdescend
    obtain ⟨-, l₁, hnext, hl₁⟩ := descend_cons_eq_ok_iff.1 hempty
    rw [next?_idle rfl] at hnext
    cases hnext
    cases hl₁
    rwa [hfront, List.dropLast_concat]
  · exact hdescend

section Joined

variable {name : String}

theorem IsPath.join (h : IsPath path) (hname : IsNodeName name)
    (hshort : (Path.join path name).utf8ByteSize ≤ maxPath) : IsPath (Path.join path name) := by
  obtain ⟨rest, hjoin, hchars⟩ := Path.exists_join_eq_append path name
  rw [hjoin] at hshort ⊢
  refine ⟨?_, ?_, hshort⟩
  · intro hempty
    rw [String.append_eq_empty_iff] at hempty
    exact h.ne_empty hempty.1
  · rw [String.toList_append, List.mem_append, not_or]
    refine ⟨h.noNul, fun hmem => ?_⟩
    rcases hchars _ hmem with hslash | hmem
    · cases hslash
    · exact hname.noNul hmem

theorem LeadsTo.at?_join (h : t.LeadsTo path l) (hname : IsNodeName name)
    (hshort : (Path.join path name).utf8ByteSize ≤ maxPath) :
    t.at? (Path.join path name) = (t.find? (l ++ [name])).map fun n => (l ++ [name], n) := by
  have hdescend : t.descend [] (Path.pieces (Path.join path name)) = .ok (l ++ [name]) := by
    rw [Path.pieces_join path hname.toIsName, descend_append_eq_ok_iff]
    exact ⟨l, h.descend_trunk, descend_cons_eq_ok_iff.2 ⟨h.find?, _, next?_name hname, rfl⟩⟩
  unfold FileTree.at?
  rw [piecesOf_eq_ok_iff.2 ⟨h.isPath.join hname hshort, rfl⟩]
  simp only [hdescend]

theorem LeadsTo.join (h : t.LeadsTo path l) (hname : IsNodeName name)
    (hshort : (Path.join path name).utf8ByteSize ≤ maxPath)
    (hfind : t.find? (l ++ [name]) = some .directory) :
    t.LeadsTo (Path.join path name) (l ++ [name]) := by
  rw [LeadsTo, h.at?_join hname hshort, hfind]
  rfl

end Joined

/-! ## New locations -/

/-- The texts end in a name for something in a directory, which goes to the location `l`. -/
def Places (t : FileTree) (pieces : List String) (l : Location) : Prop :=
  ∃ front name l₀, pieces = front ++ [name] ∧ t.descend [] front = .ok l₀ ∧
    t.find? l₀ = some .directory ∧ IsNodeName name ∧ l = l₀ ++ [name]

theorem Places.descend {pieces : List String} (h : t.Places pieces l) :
    t.descend [] pieces = .ok l := by
  obtain ⟨front, name, l₀, rfl, hfront, hdirectory, hname, rfl⟩ := h
  exact descend_append_eq_ok_iff.2
    ⟨l₀, hfront, descend_cons_eq_ok_iff.2 ⟨hdirectory, _, next?_name hname, rfl⟩⟩

theorem newLocation_eq_ok_iff {pieces : List String}
    (hpieces : ∀ piece ∈ pieces, '/' ∉ piece.toList ∧ '\x00' ∉ piece.toList) :
    t.newLocation pieces = .ok l ↔ t.Places pieces l := by
  rw [newLocation]
  split
  · rename_i hnone
    rw [List.getLast?_eq_none_iff] at hnone
    simp [hnone, Places]
  · rename_i name hname
    obtain ⟨front, rfl⟩ := List.getLast?_eq_some_iff.1 hname
    obtain ⟨hslash, hnul⟩ := hpieces name (by simp)
    rw [List.dropLast_concat, bind_eq_ok_iff]
    constructor
    · rintro ⟨l₀, hdescend, h⟩
      split at h
      · cases h
      · cases h
      · rename_i hdirectory
        split at h
        · cases h
        · rename_i hnot
          cases h
          simp only [not_or, Bool.not_eq_true, Nat.not_lt] at hnot
          exact ⟨front, name, l₀, rfl, hdescend, hdirectory,
            ⟨⟨hnot.1, hnot.2.1, hslash⟩, hnul, hnot.2.2⟩, rfl⟩
    · rintro ⟨front', name', l₀, hconcat, hdescend, hdirectory, hnode, rfl⟩
      obtain ⟨rfl, hsingle⟩ := List.append_inj' hconcat rfl
      cases hsingle
      refine ⟨l₀, hdescend, ?_⟩
      have hnot : ¬ (Path.isIdle name = true ∨ name = ".." ∨ maxName < name.utf8ByteSize) := by
        simp only [not_or, Bool.not_eq_true, Nat.not_lt]
        exact ⟨hnode.solid, hnode.notUp, hnode.short⟩
      simp only [hdirectory]
      rw [if_neg hnot]

theorem IsPath.pieces (h : IsPath path) :
    ∀ piece ∈ Path.pieces path, '/' ∉ piece.toList ∧ '\x00' ∉ piece.toList :=
  fun _ hmem => ⟨Path.slashless_of_mem_pieces hmem,
    fun hnul => h.noNul (Path.mem_of_mem_pieces hmem hnul).1⟩

theorem piecesOf_bind_eq_ok_iff {α : Type} {f : List String → Except Obstacle α} {a : α} :
    (piecesOf path >>= f) = .ok a ↔ IsPath path ∧ f (Path.pieces path) = .ok a := by
  rw [bind_eq_ok_iff]
  constructor
  · rintro ⟨pieces, hpieces, hf⟩
    obtain ⟨hpath, rfl⟩ := piecesOf_eq_ok_iff.1 hpieces
    exact ⟨hpath, hf⟩
  · rintro ⟨hpath, hf⟩
    exact ⟨_, piecesOf_eq_ok_iff.2 ⟨hpath, rfl⟩, hf⟩

/-- A tree takes a file just where its path ends in a name that no directory has. -/
theorem store_eq_true_iff {content : Content} : t.store path content = (true, t') ↔
    IsPath path ∧ ∃ l, t.Places (Path.pieces path) l ∧ t.find? l ≠ some .directory ∧
      t' = t.put l (.file content) := by
  unfold store
  constructor
  · intro h
    split at h
    · cases h
    · rename_i l hnew
      obtain ⟨hpath, hnew⟩ := piecesOf_bind_eq_ok_iff.1 hnew
      split at h
      · cases h
      · rename_i hfind
        exact ⟨hpath, l, (newLocation_eq_ok_iff hpath.pieces).1 hnew, hfind, (Prod.mk.inj h).2.symm⟩
  · rintro ⟨hpath, l, hplaces, hfind, rfl⟩
    have hnew := piecesOf_bind_eq_ok_iff.2 ⟨hpath, (newLocation_eq_ok_iff hpath.pieces).2 hplaces⟩
    rw [hnew]
    dsimp only
    split
    · exact absurd ‹_› hfind
    · rfl

/-- Whether a tree takes a file does not depend on what it holds. -/
theorem store_eq_true_of_store {content content' : Content}
    (h : (t.store path content').1 = true) : ∃ t', t.store path content = (true, t') := by
  obtain ⟨hpath, l, hplaces, hfind, -⟩ := store_eq_true_iff.1 (Prod.ext h rfl)
  exact ⟨_, store_eq_true_iff.2 ⟨hpath, l, hplaces, hfind, rfl⟩⟩

theorem mem_of_mem_dropEmpty {pieces : List String} {piece : String}
    (h : piece ∈ dropEmpty pieces) : piece ∈ pieces := by
  rw [dropEmpty, List.mem_reverse] at h
  exact List.mem_reverse.1 ((List.dropWhile_sublist _).subset h)

/-- The tree after a directory is made, if it is made. -/
theorem makeDirectory_eq (t : FileTree) (path : String) : (t.makeDirectory path).2 = t ∨
    ∃ l, t.Places (dropEmpty (Path.pieces path)) l ∧ t.find? l = none ∧
      (t.makeDirectory path).2 = t.put l .directory := by
  unfold makeDirectory
  split
  · exact .inl rfl
  · exact .inl rfl
  · rename_i l hnew
    obtain ⟨hpath, hnew⟩ := piecesOf_bind_eq_ok_iff.1 hnew
    have hplaces := (newLocation_eq_ok_iff fun piece hpiece =>
      hpath.pieces piece (mem_of_mem_dropEmpty hpiece)).1 hnew
    split
    · exact .inl rfl
    · exact .inr ⟨l, hplaces, ‹_›, rfl⟩

/-! ## Steps -/

theorem Places.ne_nil {pieces : List String} (h : t.Places pieces l) : l ≠ [] := by
  obtain ⟨front, name, l₀, -, -, -, -, rfl⟩ := h
  simp

theorem WellFormed.put_places (h : t.WellFormed) {pieces : List String}
    (hplaces : t.Places pieces l)
    (hn : n = .directory ∨ t.find? l ≠ some .directory) : (t.put l n).WellFormed := by
  have hne := hplaces.ne_nil
  obtain ⟨front, name, l₀, -, -, hdirectory, hname, rfl⟩ := hplaces
  refine h.put hne ?_ ?_ hn
  · intro text htext
    rcases List.mem_append.1 htext with htext | htext
    · exact h.isNodeName hdirectory text htext
    · rw [List.mem_singleton.1 htext]
      exact hname
  · rwa [List.dropLast_concat]

theorem WellFormed.store (h : t.WellFormed) {content : Content}
    (hstore : t.store path content = (true, t')) : t'.WellFormed := by
  obtain ⟨-, l, hplaces, hfind, rfl⟩ := store_eq_true_iff.1 hstore
  exact h.put_places hplaces (.inr hfind)

theorem WellFormed.makeDirectory (h : t.WellFormed) (path : String) :
    (t.makeDirectory path).2.WellFormed := by
  rcases t.makeDirectory_eq path with heq | ⟨l, hplaces, -, heq⟩
  · rwa [heq]
  · rw [heq]
    exact h.put_places hplaces (.inl rfl)

/-- `t'` has all that `t` has, and besides it only directories. -/
structure Grows (t t' : FileTree) : Prop where
  keeps : ∀ l n, t.find? l = some n → t'.find? l = some n
  adds : ∀ l n, t'.find? l = some n → t.find? l = some n ∨ n = .directory

theorem Grows.refl (t : FileTree) : t.Grows t := ⟨fun _ _ h => h, fun _ _ h => .inl h⟩

theorem Grows.trans {t₁ t₂ t₃ : FileTree} (h : t₁.Grows t₂) (h' : t₂.Grows t₃) : t₁.Grows t₃ where
  keeps l n hfind := h'.keeps l n (h.keeps l n hfind)
  adds l n hfind := (h'.adds l n hfind).elim (h.adds l n) .inr

theorem Grows.put_directory (hl : l ≠ []) (hfind : t.find? l = none) :
    t.Grows (t.put l .directory) where
  keeps l' n h := by
    rw [find?_put t hl, if_neg]
    · exact h
    · rintro rfl
      rw [hfind] at h
      cases h
  adds l' n h := by
    rw [find?_put t hl] at h
    split at h
    · exact .inr (Option.some.inj h).symm
    · exact .inl h

theorem grows_makeDirectory (t : FileTree) (path : String) : t.Grows (t.makeDirectory path).2 := by
  rcases t.makeDirectory_eq path with heq | ⟨l, hplaces, hfind, heq⟩
  · rw [heq]
    exact .refl t
  · rw [heq]
    exact .put_directory hplaces.ne_nil hfind

theorem Grows.content? (h : t.Grows t') (l : Location) : t'.content? l = t.content? l := by
  have hiff : ∀ content, t'.content? l = some content ↔ t.content? l = some content := by
    intro content
    rw [content?_eq_some_iff, content?_eq_some_iff]
    refine ⟨fun hfind => (h.adds l _ hfind).resolve_right (by simp), h.keeps l _⟩
  exact Option.ext hiff

theorem descend_mono (h : ∀ l, t.find? l = some .directory → t'.find? l = some .directory)
    {pieces : List String} (hdescend : t.descend l pieces = .ok l') :
    t'.descend l pieces = .ok l' := by
  induction pieces generalizing l with
  | nil => exact hdescend
  | cons piece rest ih =>
    obtain ⟨hdirectory, l₀, hnext, hrest⟩ := descend_cons_eq_ok_iff.1 hdescend
    exact descend_cons_eq_ok_iff.2 ⟨h l hdirectory, l₀, hnext, ih hrest⟩

theorem LeadsTo.mono (h : ∀ l, t.find? l = some .directory → t'.find? l = some .directory)
    (hlead : t.LeadsTo path l) : t'.LeadsTo path l := by
  obtain ⟨hpath, hdescend, hfind⟩ := at?_eq_some_iff.1 hlead
  exact at?_eq_some_iff.2 ⟨hpath, descend_mono h hdescend, h l hfind⟩

theorem Grows.leadsTo (h : t.Grows t') (hlead : t.LeadsTo path l) : t'.LeadsTo path l :=
  hlead.mono fun l => h.keeps l .directory

end FileTree

end PlatformLink
