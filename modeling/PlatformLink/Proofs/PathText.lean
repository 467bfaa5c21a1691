import Mathlib.Data.List.Basic
import PlatformLink.Output

/-! # Path texts taken apart

The texts between the slashes of a path make up the path (`Path.intercalate_pieces`), and texts
without slashes are found again between them (`Path.pieces_intercalate`). A name joined to a path
comes last of its texts (`Path.pieces_join`) and goes away with `Path.parent?`
(`Path.parent?_join`).
-/

namespace PlatformLink
set_option autoImplicit false

namespace Path

/-! ## Pieces -/

theorem segmentsAfter_eq_splitOnPPrepend (separator : Char → Bool) (done : List (List Char))
    (start cs : List Char) : segmentsAfter separator done start cs =
      done.reverse ++ List.splitOnPPrepend separator cs start := by
  induction cs generalizing done start with
  | nil => simp [segmentsAfter]
  | cons c cs ih =>
    rw [segmentsAfter, List.splitOnPPrepend_cons_eq_if]
    split
    · rw [ih]
      simp
    · rw [ih]

theorem pieces_eq (path : String) : pieces path = (path.toList.splitOn '/').map String.ofList := by
  rw [pieces, segments, segmentsAfter_eq_splitOnPPrepend, List.splitOn_eq_splitOnP]
  rfl

theorem pieces_ne_nil (path : String) : pieces path ≠ [] := by
  rw [pieces_eq, ne_eq, List.map_eq_nil_iff]
  exact List.splitOn_ne_nil _ _

theorem intercalate_pieces (path : String) : "/".intercalate (pieces path) = path := by
  have hid : String.toList ∘ String.ofList = id := funext fun _ => String.toList_ofList
  apply String.toList_injective
  rw [String.toList_intercalate, pieces_eq, List.map_map, hid, List.map_id]
  exact List.intercalate_splitOn '/'

theorem pieces_injective : Function.Injective pieces := by
  intro path path' h
  rw [← intercalate_pieces path, h, intercalate_pieces]

theorem exists_pieces_eq_concat (path : String) : ∃ front last, pieces path = front ++ [last] := by
  obtain hnil | ⟨front, last, h⟩ := List.eq_nil_or_concat (pieces path)
  · exact absurd hnil (pieces_ne_nil path)
  · exact ⟨front, last, by rw [h, List.concat_eq_append]⟩

theorem pieces_intercalate {texts : List String} (hne : texts ≠ [])
    (h : ∀ text ∈ texts, '/' ∉ text.toList) : pieces ("/".intercalate texts) = texts := by
  have hid : String.ofList ∘ String.toList = id := funext fun _ => String.ofList_toList
  have hsplit : (['/'].intercalate (texts.map String.toList)).splitOn '/' =
      texts.map String.toList :=
    List.splitOn_intercalate '/' (by simpa using h) (by simpa using hne)
  have hslash : "/".toList = ['/'] := rfl
  rw [pieces_eq, String.toList_intercalate, hslash, hsplit, List.map_map, hid, List.map_id]

/-- What stands between slashes stands in the path, and is no slash. -/
theorem mem_of_mem_pieces {path piece : String} (h : piece ∈ pieces path) {c : Char}
    (hc : c ∈ piece.toList) : c ∈ path.toList ∧ c ≠ '/' := by
  have hsplit : ∀ cs : List Char, ∀ part ∈ cs.splitOn '/', ∀ c ∈ part, c ∈ cs ∧ c ≠ '/' := by
    intro cs
    induction cs with
    | nil => simp
    | cons first cs ih =>
      rw [List.splitOn_cons_eq_if_modifyHead]
      split
      · intro part hpart c hc
        rcases List.mem_cons.1 hpart with rfl | hpart
        · cases hc
        · exact ⟨List.mem_cons_of_mem _ (ih part hpart c hc).1, (ih part hpart c hc).2⟩
      · rename_i hfirst
        have hne : first ≠ '/' := fun heq => hfirst (by rw [heq]; rfl)
        cases hrest : cs.splitOn '/' with
        | nil => exact absurd hrest (List.splitOn_ne_nil _ _)
        | cons head tail =>
          rw [hrest] at ih
          rw [List.modifyHead_cons]
          intro part hpart c hc
          rcases List.mem_cons.1 hpart with rfl | hpart
          · rcases List.mem_cons.1 hc with rfl | hc
            · exact ⟨List.mem_cons_self, hne⟩
            · have := ih head List.mem_cons_self c hc
              exact ⟨List.mem_cons_of_mem _ this.1, this.2⟩
          · have := ih part (List.mem_cons_of_mem _ hpart) c hc
            exact ⟨List.mem_cons_of_mem _ this.1, this.2⟩
  rw [pieces_eq] at h
  obtain ⟨part, hpart, rfl⟩ := List.mem_map.1 h
  rw [String.toList_ofList] at hc
  exact hsplit _ part hpart c hc

theorem slashless_of_mem_pieces {path piece : String} (h : piece ∈ pieces path) :
    '/' ∉ piece.toList :=
  fun hslash => (mem_of_mem_pieces h hslash).2 rfl

@[simp] theorem pieces_empty : pieces "" = [""] := rfl

theorem pieces_of_slashless {text : String} (h : '/' ∉ text.toList) : pieces text = [text] := by
  rw [pieces_eq, List.splitOn_eq_singleton h, List.map_singleton, String.ofList_toList]

theorem pieces_append (front back : String) :
    pieces (front ++ "/" ++ back) = pieces front ++ pieces back := by
  have hslash : "/".toList = ['/'] := rfl
  simp only [pieces_eq, String.toList_append, hslash, List.append_assoc, List.singleton_append]
  rw [List.splitOn_append_cons_self, List.map_append]

/-! ## Ends -/

theorem endsWith_iff {text suffix : String} :
    text.endsWith suffix = true ↔ suffix.toList <:+ text.toList := by
  rw [String.endsWith_eq_endsWith_toSlice, String.Slice.endsWith_string_iff, String.copy_toSlice]

/-- A text without slashes at the end of a path is at the end of what follows the last slash. -/
theorem endsWith_iff_last {path last suffix : String} {front : List String}
    (hsuffix : '/' ∉ suffix.toList) (hpieces : pieces path = front ++ [last]) :
    path.endsWith suffix = true ↔ last.endsWith suffix = true := by
  have hpath := intercalate_pieces path
  rw [endsWith_iff, endsWith_iff, ← hpath, hpieces]
  by_cases hfront : front = []
  · rw [hfront, List.nil_append, String.intercalate_singleton]
  · have hsplit : ("/".intercalate (front ++ [last])).toList =
        ("/".intercalate front).toList ++ '/' :: last.toList := by
      rw [String.intercalate_append_of_ne_nil hfront (by simp), String.intercalate_singleton]
      simp
    rw [hsplit]
    constructor
    · intro h
      rcases List.suffix_or_suffix_of_suffix h (List.suffix_append _ _) with hend | hend
      · refine (List.suffix_cons_iff.1 hend).resolve_left fun heq => hsuffix ?_
        rw [heq]
        exact List.mem_cons_self
      · exact absurd (hend.subset List.mem_cons_self) hsuffix
    · intro h
      exact List.suffix_append_of_suffix (List.suffix_cons_iff.2 (.inr h))

/-! ## Names -/

/-- A text that names something in a directory. -/
structure IsName (text : String) : Prop where
  solid : isIdle text = false
  notUp : text ≠ ".."
  slashless : '/' ∉ text.toList

theorem IsName.ne_empty {text : String} (h : IsName text) : text ≠ "" := by
  rintro rfl
  exact absurd h.solid (by decide)

theorem ofPiece?_of_isName {text : String} (h : IsName text) :
    Component.ofPiece? text = some (.name text) := by
  have hidle : ¬ (text = "" ∨ text = ".") := by simpa [isIdle] using h.solid
  rw [Component.ofPiece?, if_neg hidle, if_neg h.notUp]

theorem pieces_names {names : List String} (hne : names ≠ []) (h : ∀ name ∈ names, IsName name) :
    pieces ("/".intercalate names) = names :=
  pieces_intercalate hne fun name hname => (h name hname).slashless

/-! ## Joining -/

/-- The texts of a path that stand in front of a name joined to it: a slash at the end, or an empty
path, leaves an empty text that the name takes the place of. -/
def trunk (path : String) : List String :=
  if (pieces path).getLast? = some "" then (pieces path).dropLast else pieces path

theorem getLast?_pieces_eq_empty_iff {path : String} : (pieces path).getLast? = some "" ↔
    path = "" ∨ path.toList.getLast? = some '/' := by
  constructor
  · intro h
    obtain ⟨front, hfront⟩ := List.getLast?_eq_some_iff.1 h
    have hpath := intercalate_pieces path
    rw [hfront] at hpath
    by_cases hne : front = []
    · left
      rw [← hpath, hne]
      rfl
    · right
      rw [← hpath, String.intercalate_append_of_ne_nil hne (by simp)]
      simp
  · rintro (rfl | h)
    · rfl
    · obtain ⟨front, hfront⟩ := List.getLast?_eq_some_iff.1 h
      have hpath : path = String.ofList front ++ "/" ++ "" := by
        apply String.toList_injective
        simp [hfront]
      rw [hpath, pieces_append, pieces_empty, List.getLast?_concat]

theorem pieces_join (directory : String) {name : String} (h : IsName name) :
    pieces (join directory name) = trunk directory ++ [name] := by
  unfold trunk join
  by_cases hend : directory = "" ∨ directory.toList.getLast? = some '/'
  · rw [if_pos hend, if_pos (getLast?_pieces_eq_empty_iff.2 hend)]
    rcases hend with rfl | hend
    · rw [String.empty_append, pieces_of_slashless h.slashless]
      rfl
    · obtain ⟨front, hfront⟩ := List.getLast?_eq_some_iff.1 hend
      have hpath : directory = String.ofList front ++ "/" := by
        apply String.toList_injective
        simp [hfront]
      have hempty : directory = String.ofList front ++ "/" ++ "" := by
        rw [hpath, String.append_empty]
      rw [hpath, pieces_append, pieces_of_slashless h.slashless, ← hpath, hempty, pieces_append,
        pieces_empty, List.dropLast_concat]
  · rw [if_neg hend, if_neg (fun h => hend (getLast?_pieces_eq_empty_iff.1 h)), pieces_append,
      pieces_of_slashless h.slashless]

theorem trunk_join (directory : String) {name : String} (h : IsName name) :
    trunk (join directory name) = trunk directory ++ [name] := by
  rw [trunk, pieces_join directory h, List.getLast?_concat, if_neg]
  simpa using h.ne_empty

theorem trunk_foldl_join (directory : String) {names : List String}
    (h : ∀ name ∈ names, IsName name) :
    trunk (names.foldl join directory) = trunk directory ++ names := by
  induction names generalizing directory with
  | nil => simp
  | cons name names ih =>
    rw [List.forall_mem_cons] at h
    rw [List.foldl_cons, ih _ h.2, trunk_join directory h.1, List.append_assoc,
      List.singleton_append]

theorem pieces_foldl_join (directory : String) {names : List String} (hne : names ≠ [])
    (h : ∀ name ∈ names, IsName name) :
    pieces (names.foldl join directory) = trunk directory ++ names := by
  obtain ⟨front, name, rfl⟩ := (List.eq_nil_or_concat' names).resolve_left hne
  rw [List.forall_mem_append, List.forall_mem_singleton] at h
  rw [List.foldl_append, List.foldl_cons, List.foldl_nil, pieces_join _ h.2,
    trunk_foldl_join directory h.1, List.append_assoc]

theorem intercalate_trunk_join (directory : String) {name : String} (h : IsName name) :
    "/".intercalate (trunk (join directory name)) = join directory name := by
  rw [trunk_join directory h, ← pieces_join directory h, intercalate_pieces]

theorem exists_pieces_eq_trunk_append (path : String) :
    ∃ blanks, pieces path = trunk path ++ blanks ∧ ∀ blank ∈ blanks, blank = "" := by
  unfold trunk
  split
  · rename_i hlast
    obtain ⟨front, hfront⟩ := List.getLast?_eq_some_iff.1 hlast
    rw [hfront, List.dropLast_concat]
    exact ⟨[""], rfl, by simp⟩
  · exact ⟨[], by simp, by simp⟩

theorem trunk_isPrefix (path : String) : trunk path <+: pieces path := by
  obtain ⟨blanks, hpieces, -⟩ := exists_pieces_eq_trunk_append path
  exact ⟨blanks, hpieces.symm⟩

theorem exists_trunk_eq_cons {path : String} (hne : path ≠ "") :
    ∃ first rest, trunk path = first :: rest := by
  apply List.exists_cons_of_ne_nil
  unfold trunk
  split
  · rename_i hlast
    obtain ⟨front, hfront⟩ := List.getLast?_eq_some_iff.1 hlast
    rw [hfront, List.dropLast_concat]
    rintro rfl
    have hpath := intercalate_pieces path
    rw [hfront, List.nil_append, String.intercalate_singleton] at hpath
    exact hne hpath.symm
  · exact pieces_ne_nil path

theorem exists_join_eq_append (directory name : String) :
    ∃ rest, join directory name = directory ++ rest ∧
      ∀ c ∈ rest.toList, c = '/' ∨ c ∈ name.toList := by
  unfold join
  split
  · exact ⟨name, rfl, fun c hc => .inr hc⟩
  · refine ⟨"/" ++ name, String.append_assoc, fun c hc => ?_⟩
    simpa using hc

theorem length_le_foldl_join (directory : String) {names : List String}
    (h : ∀ name ∈ names, name ≠ "") :
    directory.length + names.length ≤ (names.foldl join directory).length := by
  induction names generalizing directory with
  | nil => simp
  | cons name names ih =>
    rw [List.forall_mem_cons] at h
    have hlength : directory.length + 1 ≤ (join directory name).length := by
      have hname : 1 ≤ name.length := by
        rw [Nat.one_le_iff_ne_zero, ne_eq, String.length_eq_zero_iff]
        exact h.1
      unfold join
      split <;> simp only [String.length_append] <;> omega
    have hrest := ih (join directory name) h.2
    rw [List.foldl_cons, List.length_cons]
    omega

/-! ## Paths from their texts -/

theorem exists_eq_intercalate_append {front : List String} (hne : front ≠ []) (back : List String) :
    ∃ rest, "/".intercalate (front ++ back) = "/".intercalate front ++ rest := by
  by_cases hback : back = []
  · exact ⟨"", by rw [hback, List.append_nil, String.append_empty]⟩
  · rw [String.intercalate_append_of_ne_nil hne hback, String.append_assoc]
    exact ⟨_, rfl⟩

/-- The path of a first text and those after it. An empty first text starts it at the root. -/
def assemble (first : String) (rest : List String) : String :=
  if first = "" ∧ rest = [] then "/" else "/".intercalate (first :: rest)

theorem assemble_ne_empty {first : String} {rest : List String}
    (h : ∀ text ∈ first :: rest, '/' ∉ text.toList) : assemble first rest ≠ "" := by
  unfold assemble
  split
  · decide
  · rename_i hroot
    intro hempty
    have hpieces := pieces_intercalate (by simp) h
    rw [hempty, pieces_empty, List.cons.injEq] at hpieces
    exact hroot ⟨hpieces.1.symm, hpieces.2.symm⟩

theorem trunk_assemble {first : String} {rest : List String}
    (h : ∀ text ∈ first :: rest, '/' ∉ text.toList) (hlast : rest.getLast? ≠ some "") :
    trunk (assemble first rest) = first :: rest := by
  unfold assemble
  split
  · rename_i hroot
    rw [hroot.1, hroot.2]
    rfl
  · rename_i hroot
    rw [trunk, pieces_intercalate (by simp) h, if_neg]
    cases rest with
    | nil => simpa using hroot
    | cons text texts => rwa [List.getLast?_cons_cons]

/-- A path goes on from the path of the texts it begins with. -/
theorem exists_eq_assemble_append {path first : String} {rest back : List String} (hne : path ≠ "")
    (hpieces : pieces path = first :: (rest ++ back)) :
    ∃ more, path = assemble first rest ++ more := by
  have hpath := intercalate_pieces path
  rw [hpieces] at hpath
  unfold assemble
  split
  · rename_i hroot
    rw [hroot.1, hroot.2, List.nil_append] at hpath
    cases back with
    | nil => exact absurd hpath.symm hne
    | cons text texts =>
      rw [String.intercalate_cons_cons, String.empty_append] at hpath
      exact ⟨_, hpath.symm⟩
  · obtain ⟨more, hmore⟩ := exists_eq_intercalate_append (List.cons_ne_nil first rest) back
    exact ⟨more, by rw [← hpath, ← List.cons_append, hmore]⟩

/-! ## The directory above -/

theorem exists_eq_dropIdle_append (texts : List String) :
    ∃ idle, texts = dropIdle texts ++ idle ∧ ∀ text ∈ idle, isIdle text = true := by
  refine ⟨(texts.reverse.takeWhile isIdle).reverse, ?_, fun text htext => ?_⟩
  · rw [dropIdle, ← List.reverse_append, List.takeWhile_append_dropWhile, List.reverse_reverse]
  · exact List.all_eq_true.1 List.all_takeWhile text (List.mem_reverse.1 htext)

theorem dropIdle_isPrefix (texts : List String) : dropIdle texts <+: texts := by
  obtain ⟨idle, htexts, -⟩ := exists_eq_dropIdle_append texts
  exact ⟨idle, htexts.symm⟩

theorem getLast?_dropIdle (texts : List String) : (dropIdle texts).getLast? ≠ some "" := by
  rw [dropIdle, List.getLast?_reverse]
  intro hempty
  have hsolid := List.head?_dropWhile_not isIdle texts.reverse
  rw [hempty] at hsolid
  cases hsolid

theorem dropIdle_append_idle (texts : List String) {idle : List String}
    (h : ∀ text ∈ idle, isIdle text = true) : dropIdle (texts ++ idle) = dropIdle texts := by
  rw [dropIdle, List.reverse_append, List.dropWhile_append_of_pos, dropIdle]
  exact fun text htext => h text (List.mem_reverse.1 htext)

theorem dropIdle_concat (texts : List String) {name : String} (h : isIdle name = false) :
    dropIdle (texts ++ [name]) = texts ++ [name] := by
  simp [dropIdle, h]

/-- A path from texts that another one begins with has these, without the idle ones at their end. -/
theorem trunk_assemble_dropIdle {path first : String} {rest inner : List String}
    (htrunk : trunk path = first :: rest) (hinner : inner <+: rest) :
    trunk (assemble first (dropIdle inner)) = first :: dropIdle inner := by
  refine trunk_assemble (fun text htext => ?_) (getLast?_dropIdle inner)
  have hleading : first :: dropIdle inner <+: trunk path := by
    rw [htrunk, List.prefix_cons_inj]
    exact (dropIdle_isPrefix inner).trans hinner
  exact slashless_of_mem_pieces ((hleading.trans (trunk_isPrefix path)).subset htext)

theorem name_mem_components {path name : String} (h : IsName name) (hmem : name ∈ pieces path) :
    .name name ∈ components path := by
  have hinner : .name name ∈ (pieces path).filterMap Component.ofPiece? :=
    List.mem_filterMap.2 ⟨name, hmem, ofPiece?_of_isName h⟩
  unfold components
  dsimp only
  split
  · exact List.mem_cons_of_mem _ hinner
  · exact List.mem_cons_of_mem _ hinner
  · exact hinner

/-- The directory above a path is the path of its texts but the last one that adds something. -/
theorem parent?_eq {path first : String} {rest : List String}
    (htrunk : trunk path = first :: rest) :
    parent? path =
      if components path = [] ∨ components path = [.root] then none
      else if dropIdle rest = [] then some ""
      else some (assemble first (dropIdle (dropIdle rest).dropLast)) := by
  obtain ⟨blanks, hpieces, hblanks⟩ := exists_pieces_eq_trunk_append path
  have hidle : dropIdle (rest ++ blanks) = dropIdle rest :=
    dropIdle_append_idle rest fun blank hblank => by rw [hblanks blank hblank]; rfl
  rw [htrunk, List.cons_append] at hpieces
  unfold parent?
  split
  next hnone => rw [if_pos (.inl hnone)]
  next hroot => rw [if_pos (.inr hroot)]
  next hnone hroot =>
    rw [if_neg (not_or.2 ⟨hnone, hroot⟩), hpieces]
    dsimp only
    rw [hidle]
    by_cases hrest : dropIdle rest = []
    · rw [if_pos hrest, hrest]
      rfl
    · rw [if_neg hrest, if_neg (by simpa using hrest)]
      cases dropIdle (dropIdle rest).dropLast with
      | nil => simp [assemble]
      | cons text texts => simp [assemble]

/-- The directory above a name is the path it was joined to, without what adds nothing at its
end. -/
theorem parent?_join {directory name first : String} {rest : List String} (h : IsName name)
    (htrunk : trunk directory = first :: rest) :
    parent? (join directory name) = some (assemble first (dropIdle rest)) := by
  have hjoin : trunk (join directory name) = first :: (rest ++ [name]) := by
    rw [trunk_join directory h, htrunk, List.cons_append]
  have hname : .name name ∈ components (join directory name) :=
    name_mem_components h (by simp [pieces_join directory h])
  have hnot : ¬ (components (join directory name) = [] ∨
      components (join directory name) = [.root]) := by
    rintro (hnone | hroot)
    · simp [hnone] at hname
    · simp [hroot] at hname
  rw [parent?_eq hjoin, if_neg hnot, dropIdle_concat rest h.solid, if_neg (by simp),
    List.dropLast_concat]

theorem parent?_join_join {directory inner name first : String} {rest : List String}
    (hinner : IsName inner) (hname : IsName name) (htrunk : trunk directory = first :: rest) :
    parent? (join (join directory inner) name) = some (join directory inner) := by
  have hjoin : trunk (join directory inner) = first :: (rest ++ [inner]) := by
    rw [trunk_join directory hinner, htrunk, List.cons_append]
  rw [parent?_join hname hjoin, dropIdle_concat rest hinner.solid, assemble, if_neg (by simp),
    ← hjoin, intercalate_trunk_join directory hinner]

/-- The directory above a path has some of its texts. -/
theorem trunk_parent?_isPrefix {path parent : String} (h : parent? path = some parent) :
    trunk parent <+: trunk path := by
  have hne : path ≠ "" := by
    rintro rfl
    cases h
  obtain ⟨first, rest, htrunk⟩ := exists_trunk_eq_cons hne
  rw [parent?_eq htrunk] at h
  split at h
  next => cases h
  next =>
    split at h
    next =>
      rw [← Option.some.inj h]
      exact List.nil_prefix
    next =>
      rw [← Option.some.inj h]
      have hinner : (dropIdle rest).dropLast <+: rest :=
        (List.dropLast_prefix _).trans (dropIdle_isPrefix rest)
      rw [trunk_assemble_dropIdle htrunk hinner, htrunk, List.prefix_cons_inj]
      exact (dropIdle_isPrefix _).trans hinner

theorem ancestors_empty : ancestors "" = [] := rfl

/-- The directories above a path have some of its texts. -/
theorem trunk_isPrefix_of_mem_ancestorsWithin {n : Nat} {path above : String}
    (h : above ∈ ancestorsWithin n path) : trunk above <+: trunk path := by
  induction n generalizing path with
  | zero => cases h
  | succ n ih =>
    rw [ancestorsWithin] at h
    split at h
    next => cases h
    next =>
      split at h
      next parent hparent =>
        obtain rfl | h := List.mem_cons.1 h
        · exact List.prefix_rfl
        · exact (ih h).trans (trunk_parent?_isPrefix hparent)
      next =>
        obtain rfl := List.mem_singleton.1 h
        exact List.prefix_rfl

theorem trunk_isPrefix_of_mem_ancestors_parent? {path above : String}
    (h : above ∈ ancestors ((parent? path).getD "")) : trunk above <+: trunk path := by
  cases hparent : parent? path with
  | none =>
    rw [hparent, Option.getD_none, ancestors_empty] at h
    cases h
  | some parent =>
    rw [hparent, Option.getD_some] at h
    exact (trunk_isPrefix_of_mem_ancestorsWithin h).trans (trunk_parent?_isPrefix hparent)

/-! ## Paths of entries -/

theorem names?_eq_some_iff {path : String} {names : List String} :
    Output.names? path = some names ↔
      (components path).filter (· != .current) = names.map .name := by
  have hinj : Function.Injective Component.name := fun _ _ h => Component.name.inj h
  unfold Output.names?
  induction components path generalizing names with
  | nil => simp [eq_comm]
  | cons component rest ih =>
    rw [List.foldr_cons]
    cases component with
    | name text =>
      rw [List.filter_cons_of_pos rfl]
      split
      · rename_i texts hname hrest
        cases hname
        rw [ih.1 hrest, ← List.map_cons, (List.map_injective_iff.2 hinj).eq_iff, Option.some.injEq]
      · rename_i hname
        cases hname
      · rename_i hnone
        constructor
        · intro h
          cases h
        · intro h
          obtain ⟨name, names', -, -, hrest⟩ := List.map_eq_cons_iff.1 h.symm
          exact absurd (ih.2 hrest.symm) (hnone text names' rfl)
    | current =>
      rw [List.filter_cons_of_neg (by simp)]
      exact ih
    | root => cases names <;> simp
    | parent => cases names <;> simp

theorem eq_filter_of_filterMap {texts names : List String}
    (h : texts.filterMap Component.ofPiece? = names.map .name) :
    names = texts.filter (!isIdle ·) ∧ ".." ∉ names := by
  induction texts generalizing names with
  | nil =>
    rw [List.filterMap_nil, eq_comm, List.map_eq_nil_iff] at h
    simp [h]
  | cons text texts ih =>
    by_cases hidle : text = "" ∨ text = "."
    · rw [List.filterMap_cons_none (by rw [Component.ofPiece?, if_pos hidle])] at h
      rw [List.filter_cons_of_neg (by simpa [isIdle, or_iff_not_imp_left] using hidle)]
      exact ih h
    · have hsolid : isIdle text = false := by simpa [isIdle] using hidle
      rw [List.filter_cons_of_pos (by rw [hsolid]; rfl)]
      by_cases hup : text = ".."
      · rw [List.filterMap_cons_some (b := .parent)
          (by rw [Component.ofPiece?, if_neg hidle, if_pos hup])] at h
        cases names <;> simp at h
      · rw [List.filterMap_cons_some (b := .name text)
          (by rw [Component.ofPiece?, if_neg hidle, if_neg hup])] at h
        cases names with
        | nil => simp at h
        | cons name names =>
          rw [List.map_cons, List.cons.injEq, Component.name.injEq] at h
          obtain ⟨hrest, hnotUp⟩ := ih h.2
          rw [← h.1, ← hrest, List.mem_cons, not_or]
          exact ⟨rfl, Ne.symm hup, hnotUp⟩

theorem filter_components {path : String} {names : List String}
    (h : (components path).filter (· != .current) = names.map .name) :
    (pieces path).filterMap Component.ofPiece? = names.map .name := by
  have hpiece (piece : String) : Component.ofPiece? piece ≠ some .current := by
    unfold Component.ofPiece?
    repeat' split
    all_goals simp
  have hinner : ((pieces path).filterMap Component.ofPiece?).filter (· != .current) =
      (pieces path).filterMap Component.ofPiece? := by
    rw [List.filter_eq_self]
    intro component hmem
    obtain ⟨piece, -, hof⟩ := List.mem_filterMap.1 hmem
    simp only [bne_iff_ne, ne_eq]
    rintro rfl
    exact hpiece piece hof
  unfold components at h
  dsimp only at h
  split at h
  · cases names <;> simp at h
  · rwa [List.filter_cons_of_neg (by simp), hinner] at h
  · rwa [hinner] at h

/-- The names by which an entry lies in a directory are the texts of its path that add something. -/
theorem names?_eq_some {path : String} {names : List String} (h : Output.names? path = some names) :
    names = (pieces path).filter (!isIdle ·) ∧ ∀ name ∈ names, IsName name := by
  obtain ⟨hnames, hnotUp⟩ := eq_filter_of_filterMap (filter_components (names?_eq_some_iff.1 h))
  refine ⟨hnames, fun name hname => ?_⟩
  have hmem := hname
  rw [hnames, List.mem_filter] at hmem
  refine ⟨by simpa using hmem.2, ?_, slashless_of_mem_pieces hmem.1⟩
  rintro rfl
  exact hnotUp hname

theorem names?_intercalate {names : List String} (hne : names ≠ [])
    (h : ∀ name ∈ names, IsName name) : Output.names? ("/".intercalate names) = some names := by
  have hinner : ∀ texts : List String, (∀ text ∈ texts, IsName text) →
      texts.filterMap Component.ofPiece? = texts.map .name := by
    intro texts htexts
    induction texts with
    | nil => rfl
    | cons text texts ih =>
      rw [List.forall_mem_cons] at htexts
      rw [List.filterMap_cons_some (ofPiece?_of_isName htexts.1), ih htexts.2, List.map_cons]
  have hcomponents : components ("/".intercalate names) = names.map .name := by
    unfold components
    rw [pieces_names hne h, hinner names h]
    dsimp only
    split
    · exact absurd rfl (h "" List.mem_cons_self).ne_empty
    · exact absurd (h "." List.mem_cons_self).solid (by decide)
    · rfl
  rw [names?_eq_some_iff, hcomponents, List.filter_eq_self]
  simp

end Path

end PlatformLink
