import PlatformLink.Json.Parsing
import PlatformLink.Json.Printing
import PlatformLink.Proofs.TextRoundTrip

/-! # Written values read back

A value without numbers that does not nest too deep (`Json.Plain`) is what `Json.parse?` finds in
the text that `Json.pretty` makes of it: `Json.parse?_pretty`. Every character of a string comes
back from its escape (`Json.stringRest_escape`), and items and members come back one after another
from what their values give.
-/

namespace PlatformLink.Json
set_option autoImplicit false

/-- Values without numbers that nest at most so deep. -/
inductive Plain : Nat → Json → Prop where
  | null (n : Nat) : Plain n .null
  | bool (n : Nat) (value : Bool) : Plain n (.bool value)
  | string (n : Nat) (text : String) : Plain n (.string text)
  | array {n : Nat} {items : List Json} (h : ∀ item ∈ items, Plain n item) :
    Plain (n + 1) (.array items)
  | object {n : Nat} {members : List (String × Json)} (h : ∀ m ∈ members, Plain n m.2) :
    Plain (n + 1) (.object members)

attribute [simp] Plain.null Plain.bool Plain.string

@[simp] theorem plain_array_iff {n : Nat} {items : List Json} :
    Plain (n + 1) (.array items) ↔ ∀ item ∈ items, Plain n item :=
  ⟨fun | .array h => h, .array⟩

@[simp] theorem plain_object_iff {n : Nat} {members : List (String × Json)} :
    Plain (n + 1) (.object members) ↔ ∀ m ∈ members, Plain n m.2 :=
  ⟨fun | .object h => h, .object⟩

/-! ## Strings -/

theorem hexValue?_hexDigit : ∀ n < 16, hexValue? (hexDigit n) = some n := by
  decide

/-- A control character comes back from its number. -/
theorem escape?_control {c : Char} (hc : c.toNat < 0x20) (rest : List Char) :
    escape? ('u' :: '0' :: '0' :: hexDigit (c.toNat / 16) :: hexDigit (c.toNat % 16) :: rest) =
      some (c, rest) := by
  have hzero : hexValue? '0' = some 0 := rfl
  have hhigh := hexValue?_hexDigit (c.toNat / 16) (by omega)
  have hlow := hexValue?_hexDigit (c.toNat % 16) (by omega)
  have hunit : unit? '0' '0' (hexDigit (c.toNat / 16)) (hexDigit (c.toNat % 16)) =
      some (UInt16.ofNat c.toNat) := by
    have hsum : 0 * 4096 + 0 * 256 + c.toNat / 16 * 16 + c.toNat % 16 = c.toNat := by omega
    simp only [unit?, hzero, hhigh, hlow, bind, Option.bind, pure, hsum]
  have htoNat : (UInt16.ofNat c.toNat).toNat = c.toNat := by
    simp only [UInt16.toNat_ofNat']
    omega
  obtain ⟨hisHigh, hisLow⟩ := Utf16.isHigh_isLow_of_char c (by omega)
  simp only [escape?, hunit, bind, Option.bind, unitChar?, hisHigh, hisLow, Bool.false_eq_true,
    if_false, htoNat, Char.ofNat_toNat]

/-- A character stands for itself in a string, or an escape gives it. -/
theorem escape_cases (c : Char) :
    escape c = [c] ∧ c ≠ '"' ∧ c ≠ '\\' ∧ 0x20 ≤ c.toNat ∨
      ∃ code, escape c = '\\' :: code ∧ ∀ rest, escape? (code ++ rest) = some (c, rest) := by
  unfold escape
  split
  next h => exact .inr ⟨['"'], rfl, fun rest => by rw [h]; rfl⟩
  next hquote =>
    split
    next h => exact .inr ⟨['\\'], rfl, fun rest => by rw [h]; rfl⟩
    next hbackslash =>
      -- the control characters with an escape of their own, and the other ones
      split
      next h => exact .inr ⟨['b'], rfl, fun rest => by rw [h]; rfl⟩
      split
      next h => exact .inr ⟨['f'], rfl, fun rest => by rw [h]; rfl⟩
      split
      next h => exact .inr ⟨['n'], rfl, fun rest => by rw [h]; rfl⟩
      split
      next h => exact .inr ⟨['r'], rfl, fun rest => by rw [h]; rfl⟩
      split
      next h => exact .inr ⟨['t'], rfl, fun rest => by rw [h]; rfl⟩
      split
      next hcontrol => exact .inr ⟨_, rfl, escape?_control hcontrol⟩
      next hcontrol => exact .inl ⟨rfl, hquote, hbackslash, Nat.not_lt.1 hcontrol⟩

theorem stringRest_escape (done : List Char) (fuel : Nat) (c : Char) (rest : List Char) :
    stringRest done (fuel + 1) (escape c ++ rest) = stringRest (c :: done) fuel rest := by
  obtain ⟨hescape, hquote, hbackslash, hcontrol⟩ | ⟨code, hescape, hcode⟩ := escape_cases c
  · rw [hescape, List.singleton_append, stringRest, if_neg hquote, if_neg hbackslash,
      if_neg (Nat.not_lt.2 hcontrol)]
  · rw [hescape, List.cons_append, stringRest, if_neg (by decide), if_pos rfl, hcode]

theorem escape_ne_nil (c : Char) : escape c ≠ [] := by
  obtain ⟨hescape, -⟩ | ⟨code, hescape, -⟩ := escape_cases c
  all_goals simp [hescape]

theorem stringRest_flatMap_escape (done cs rest : List Char) {fuel : Nat}
    (hfuel : cs.length < fuel) :
    stringRest done fuel (cs.flatMap escape ++ '"' :: rest) =
      some (String.ofList (done.reverse ++ cs), rest) := by
  obtain ⟨fuel, rfl⟩ := Nat.exists_eq_add_one_of_ne_zero (Nat.ne_zero_of_lt hfuel)
  induction cs generalizing done fuel with
  | nil => rw [List.flatMap_nil, List.nil_append, stringRest, if_pos rfl, List.append_nil]
  | cons c cs ih =>
    rw [List.length_cons] at hfuel
    obtain ⟨fuel, rfl⟩ := Nat.exists_eq_add_one_of_ne_zero (n := fuel) (by omega)
    rw [List.flatMap_cons, List.append_assoc, stringRest_escape, ih _ _ (by omega),
      List.reverse_cons, List.append_assoc, List.singleton_append]

theorem toList_quote (text : String) :
    (quote text).toList = '"' :: (text.toList.flatMap escape ++ ['"']) := by
  rw [quote, String.toList_ofList]

/-- A string is read back behind its first quote. -/
theorem string?_escape (text : String) (rest : List Char) :
    string? (text.toList.flatMap escape ++ '"' :: rest) = some (text, rest) := by
  have hlength : text.toList.length ≤ (text.toList.flatMap escape).length := by
    induction text.toList with
    | nil => exact Nat.le_refl 0
    | cons c cs ih =>
      have hpos := List.length_pos_iff.2 (escape_ne_nil c)
      rw [List.flatMap_cons, List.length_append, List.length_cons]
      omega
  rw [string?, stringRest_flatMap_escape, List.reverse_nil, List.nil_append, String.ofList_toList]
  rw [List.length_append]
  omega

/-! ## Blanks -/

theorem skipBlanks_cons {c : Char} (h : (c == ' ' || c == '\n' || c == '\t' || c == '\r') = false)
    (cs : List Char) : skipBlanks (c :: cs) = c :: cs := by
  rw [skipBlanks, List.dropWhile_cons_of_neg (by rw [h]; exact Bool.false_ne_true)]

theorem skipBlanks_newLine (level : Nat) (cs : List Char) :
    skipBlanks ((newLine level).toList ++ cs) = skipBlanks cs := by
  rw [skipBlanks, List.dropWhile_append_of_pos]
  · rfl
  · intro c hc
    rw [newLine, String.toList_append, List.mem_append] at hc
    rcases hc with hc | hc
    · rw [List.mem_singleton.1 hc]
      rfl
    · rw [String.toList_ofList] at hc
      rw [List.eq_of_mem_replicate hc]
      rfl

theorem toList_renderItems_cons (level : Nat) (item : Json) (rest : List Json) :
    (renderItems level (item :: rest)).toList = ',' :: ((newLine level).toList ++
      ((render level item).toList ++ (renderItems level rest).toList)) := by
  simp [renderItems]

theorem toList_render_array (level : Nat) (item : Json) (rest : List Json) :
    (render level (.array (item :: rest))).toList = '[' :: ((newLine (level + 1)).toList ++
      ((render (level + 1) item).toList ++ ((renderItems (level + 1) rest).toList ++
        ((newLine level).toList ++ [']'])))) := by
  simp [render]

/-- The text of a member. -/
def memberText (level : Nat) (m : String × Json) : List Char :=
  (quote m.1).toList ++ ':' :: ' ' :: (render level m.2).toList

theorem toList_renderMembers_cons (level : Nat) (m : String × Json)
    (rest : List (String × Json)) :
    (renderMembers level (m :: rest)).toList = ',' :: ((newLine level).toList ++
      (memberText level m ++ (renderMembers level rest).toList)) := by
  simp [renderMembers, memberText]

theorem toList_render_object (level : Nat) (m : String × Json) (rest : List (String × Json)) :
    (render level (.object (m :: rest))).toList = '\x7b' :: ((newLine (level + 1)).toList ++
      (memberText (level + 1) m ++ ((renderMembers (level + 1) rest).toList ++
        ((newLine level).toList ++ ['\x7d'])))) := by
  simp [render, memberText]

/-- What a value without numbers starts with is neither a blank nor the end of an array. -/
theorem Plain.exists_render_eq {n : Nat} {json : Json} (h : Plain n json) (level : Nat) :
    ∃ c cs, (render level json).toList = c :: cs ∧ c ≠ ']' ∧
      (c == ' ' || c == '\n' || c == '\t' || c == '\r') = false := by
  cases h with
  | null => exact ⟨'n', ['u', 'l', 'l'], by simp [render], by decide, by decide⟩
  | bool n value =>
    cases value with
    | true => exact ⟨'t', ['r', 'u', 'e'], by simp [render], by decide, by decide⟩
    | false => exact ⟨'f', ['a', 'l', 's', 'e'], by simp [render], by decide, by decide⟩
  | string n text => exact ⟨'"', _, toList_quote text, by decide, by decide⟩
  | @array n items h =>
    cases items with
    | nil => exact ⟨'[', [']'], by simp [render], by decide, by decide⟩
    | cons item rest => exact ⟨'[', _, toList_render_array level item rest, by decide, by decide⟩
  | @object n members h =>
    cases members with
    | nil => exact ⟨'\x7b', ['\x7d'], by simp [render], by decide, by decide⟩
    | cons m rest => exact ⟨'\x7b', _, toList_render_object level m rest, by decide, by decide⟩

theorem Plain.skipBlanks_render {n : Nat} {json : Json} (h : Plain n json) (level : Nat)
    (rest : List Char) :
    skipBlanks ((render level json).toList ++ rest) = (render level json).toList ++ rest := by
  obtain ⟨c, cs, hrender, -, hsolid⟩ := h.exists_render_eq level
  rw [hrender, List.cons_append, skipBlanks_cons hsolid]

theorem skipBlanks_memberText (level : Nat) (m : String × Json) (rest : List Char) :
    skipBlanks (memberText level m ++ rest) = memberText level m ++ rest := by
  rw [memberText, toList_quote]
  exact skipBlanks_cons (by decide) _

/-! ## Values -/

/-- A value is read back from where it is written, whatever blanks stand before it and whatever
follows. -/
def ReadsBack (depth : Nat) (json : Json) : Prop :=
  ∀ level fuel cs rest, skipBlanks cs = (render level json).toList ++ rest →
    (render level json).toList.length ≤ fuel → value? fuel depth cs = some (json, rest)

/-- The items of an array are read back one after another, up to its end. -/
theorem items?_render {n depth level outer : Nat} {item : Json} {items : List Json}
    (hplain : ∀ json ∈ item :: items, Plain n json)
    (hreads : ∀ json ∈ item :: items, ReadsBack depth json) (done : List Json) {fuel : Nat}
    {cs rest : List Char}
    (hcs : skipBlanks cs = (render level item).toList ++ ((renderItems level items).toList ++
      ((newLine outer).toList ++ ']' :: rest)))
    (hfuel : (render level item).toList.length + (renderItems level items).toList.length < fuel) :
    items? fuel depth done cs = some (.array (done.reverse ++ item :: items), rest) := by
  obtain ⟨fuel, rfl⟩ := Nat.exists_eq_add_one_of_ne_zero (Nat.ne_zero_of_lt hfuel)
  induction items generalizing item done cs fuel with
  | nil =>
    have hitem := hreads item List.mem_cons_self level fuel cs _ hcs (by omega)
    have hend : skipBlanks ((renderItems level []).toList ++
        ((newLine outer).toList ++ ']' :: rest)) = ']' :: rest := by
      rw [renderItems, String.toList_empty, List.nil_append, skipBlanks_newLine,
        skipBlanks_cons (by decide)]
    rw [items?, hitem]
    simp only [hend, List.reverse_cons]
  | cons next items ih =>
    rw [List.forall_mem_cons] at hplain hreads
    have hitem := hreads.1 level fuel cs _ hcs (by omega)
    rw [toList_renderItems_cons, List.cons_append, List.append_assoc, List.append_assoc] at hitem
    rw [toList_renderItems_cons, List.length_cons, List.length_append, List.length_append] at hfuel
    obtain ⟨fuel, rfl⟩ := Nat.exists_eq_add_one_of_ne_zero (n := fuel) (by omega)
    have hnext := (hplain.2 next List.mem_cons_self).skipBlanks_render level
      ((renderItems level items).toList ++ ((newLine outer).toList ++ ']' :: rest))
    rw [← skipBlanks_newLine level] at hnext
    rw [items?, hitem]
    simp only [skipBlanks_cons (c := ',') (by decide)]
    rw [ih hplain.2 hreads.2 (item :: done) hnext fuel (by omega), List.reverse_cons,
      List.append_assoc, List.singleton_append]

/-- A member is read back, and what follows decides whether there are more. -/
theorem members?_member {n depth level fuel : Nat} {m : String × Json} (hplain : Plain n m.2)
    (hreads : ReadsBack depth m.2) (done : List (String × Json)) {cs rest after : List Char}
    {c : Char} (hcs : skipBlanks cs = memberText level m ++ rest)
    (hafter : skipBlanks rest = c :: after) (hfuel : (memberText level m).length ≤ fuel) :
    members? (fuel + 1) depth done cs =
      if c = ',' then members? fuel depth (m :: done) after
      else if c = '\x7d' then some (.object (m :: done).reverse, after)
      else none := by
  obtain ⟨name, item⟩ := m
  have hquote : skipBlanks cs = '"' :: (name.toList.flatMap escape ++ '"' ::
      ':' :: ' ' :: ((render level item).toList ++ rest)) := by
    rw [hcs, memberText, toList_quote]
    simp only [List.cons_append, List.append_assoc, List.nil_append]
  have hcolon : skipBlanks (':' :: ' ' :: ((render level item).toList ++ rest)) =
      ':' :: ' ' :: ((render level item).toList ++ rest) := skipBlanks_cons (by decide) _
  have hblank : skipBlanks (' ' :: ((render level item).toList ++ rest)) =
      (render level item).toList ++ rest := hplain.skipBlanks_render level rest
  have hvalue := hreads level fuel _ _ hblank (by
    rw [memberText, List.length_append, List.length_cons, List.length_cons] at hfuel
    omega)
  rw [members?, hquote]
  simp only [string?_escape, hcolon, hvalue, hafter]
  split
  next heq =>
    cases heq
    rw [if_pos rfl]
  next heq =>
    cases heq
    rw [if_neg (by decide), if_pos rfl]
  next hcomma hclose =>
    rw [if_neg fun heq => hcomma after (by rw [heq]), if_neg fun heq => hclose after (by rw [heq])]

/-- The members of an object are read back one after another, up to its end. -/
theorem members?_render {n depth level outer : Nat} {m : String × Json}
    {members : List (String × Json)} (hplain : ∀ each ∈ m :: members, Plain n each.2)
    (hreads : ∀ each ∈ m :: members, ReadsBack depth each.2) (done : List (String × Json))
    {fuel : Nat} {cs rest : List Char}
    (hcs : skipBlanks cs = memberText level m ++ ((renderMembers level members).toList ++
      ((newLine outer).toList ++ '\x7d' :: rest)))
    (hfuel : (memberText level m).length + (renderMembers level members).toList.length < fuel) :
    members? fuel depth done cs = some (.object (done.reverse ++ m :: members), rest) := by
  obtain ⟨fuel, rfl⟩ := Nat.exists_eq_add_one_of_ne_zero (Nat.ne_zero_of_lt hfuel)
  induction members generalizing m done cs fuel with
  | nil =>
    have hend : skipBlanks ((renderMembers level []).toList ++
        ((newLine outer).toList ++ '\x7d' :: rest)) = '\x7d' :: rest := by
      rw [renderMembers, String.toList_empty, List.nil_append, skipBlanks_newLine,
        skipBlanks_cons (by decide)]
    rw [members?_member (hplain m List.mem_cons_self) (hreads m List.mem_cons_self) done hcs hend
      (by omega), if_neg (by decide), if_pos rfl, List.reverse_cons]
  | cons next members ih =>
    rw [List.forall_mem_cons] at hplain hreads
    rw [toList_renderMembers_cons, List.cons_append, List.append_assoc, List.append_assoc] at hcs
    rw [toList_renderMembers_cons, List.length_cons, List.length_append,
      List.length_append] at hfuel
    obtain ⟨fuel, rfl⟩ := Nat.exists_eq_add_one_of_ne_zero (n := fuel) (by omega)
    have hnext := skipBlanks_memberText level next ((renderMembers level members).toList ++
      ((newLine outer).toList ++ '\x7d' :: rest))
    rw [← skipBlanks_newLine level] at hnext
    rw [members?_member hplain.1 hreads.1 done hcs (skipBlanks_cons (by decide) _) (by omega),
      if_pos rfl, ih hplain.2 hreads.2 (m :: done) hnext fuel (by omega), List.reverse_cons,
      List.append_assoc, List.singleton_append]

/-- It is enough to read with fuel for one step. -/
theorem Plain.readsBack_of {n depth : Nat} {json : Json} (h : Plain n json)
    (hreads : ∀ level fuel cs rest, skipBlanks cs = (render level json).toList ++ rest →
      (render level json).toList.length ≤ fuel + 1 →
        value? (fuel + 1) depth cs = some (json, rest)) : ReadsBack depth json := by
  intro level fuel cs rest hcs hfuel
  obtain ⟨c, cs', hrender, -⟩ := h.exists_render_eq level
  have hpos : fuel ≠ 0 := by
    rw [hrender, List.length_cons] at hfuel
    omega
  obtain ⟨fuel, rfl⟩ := Nat.exists_eq_add_one_of_ne_zero hpos
  exact hreads level fuel cs rest hcs hfuel

theorem readsBack_array_cons {n depth : Nat} {item : Json} {items : List Json}
    (hplain : ∀ json ∈ item :: items, Plain n json) (hdepth : 1 < depth)
    (hreads : ∀ json ∈ item :: items, ReadsBack (depth - 1) json) :
    ReadsBack depth (.array (item :: items)) := by
  refine (Plain.array hplain).readsBack_of fun level fuel cs rest hcs hfuel => ?_
  rw [toList_render_array] at hcs hfuel
  simp only [List.cons_append, List.append_assoc, List.nil_append, List.length_cons,
    List.length_append] at hcs hfuel
  have hfirst := hplain item List.mem_cons_self
  obtain ⟨c, front, hrender, hc, -⟩ := hfirst.exists_render_eq (level + 1)
  have hinner := hfirst.skipBlanks_render (level + 1) ((renderItems (level + 1) items).toList ++
    ((newLine level).toList ++ ']' :: rest))
  have hitems := items?_render hplain hreads [] hinner (by omega : _ < fuel)
  rw [value?, hcs]
  simp only
  rw [if_neg (by omega), skipBlanks_newLine, hinner]
  rw [hrender] at hitems ⊢
  rw [List.cons_append] at hitems ⊢
  split
  next hclose => exact absurd (List.cons.inj hclose).1 hc
  next => exact hitems

theorem readsBack_object_cons {n depth : Nat} {m : String × Json} {members : List (String × Json)}
    (hplain : ∀ each ∈ m :: members, Plain n each.2) (hdepth : 1 < depth)
    (hreads : ∀ each ∈ m :: members, ReadsBack (depth - 1) each.2) :
    ReadsBack depth (.object (m :: members)) := by
  refine (Plain.object hplain).readsBack_of fun level fuel cs rest hcs hfuel => ?_
  rw [toList_render_object] at hcs hfuel
  simp only [List.cons_append, List.append_assoc, List.nil_append, List.length_cons,
    List.length_append] at hcs hfuel
  have hinner := skipBlanks_memberText (level + 1) m ((renderMembers (level + 1) members).toList ++
    ((newLine level).toList ++ '\x7d' :: rest))
  have hmembers := members?_render hplain hreads [] hinner (by omega : _ < fuel)
  rw [value?, hcs]
  simp only
  rw [if_neg (by omega), skipBlanks_newLine, hinner]
  rw [memberText, toList_quote] at hmembers ⊢
  exact hmembers

/-- Reading goes as deep as a value nests, so nothing but its depth stands against it. -/
theorem Plain.readsBack {n : Nat} {json : Json} (h : Plain n json) {depth : Nat} (hn : n < depth) :
    ReadsBack depth json := by
  induction h generalizing depth with
  | null n =>
    refine (Plain.null n).readsBack_of fun level fuel cs rest hcs _ => ?_
    rw [value?, hcs]
    simp [render]
  | bool n value =>
    refine (Plain.bool n value).readsBack_of fun level fuel cs rest hcs _ => ?_
    rw [value?, hcs]
    cases value <;> simp [render]
  | string n text =>
    refine (Plain.string n text).readsBack_of fun level fuel cs rest hcs _ => ?_
    have hquote : skipBlanks cs = '"' :: (text.toList.flatMap escape ++ '"' :: rest) := by
      rw [hcs, render, toList_quote]
      simp
    rw [value?, hquote]
    simp [string?_escape]
  | @array n items h ih =>
    cases items with
    | nil =>
      refine (Plain.array h).readsBack_of fun level fuel cs rest hcs _ => ?_
      have hend : skipBlanks (']' :: rest) = ']' :: rest := skipBlanks_cons (by decide) rest
      rw [value?, hcs]
      simp [render, hend, show ¬ depth ≤ 1 by omega]
    | cons item items =>
      exact readsBack_array_cons h (by omega) fun json hjson => ih json hjson (by omega)
  | @object n members h ih =>
    cases members with
    | nil =>
      refine (Plain.object h).readsBack_of fun level fuel cs rest hcs _ => ?_
      have hend : skipBlanks ('\x7d' :: rest) = '\x7d' :: rest := skipBlanks_cons (by decide) rest
      rw [value?, hcs]
      simp [render, hend, show ¬ depth ≤ 1 by omega]
    | cons m members =>
      exact readsBack_object_cons h (by omega) fun each heach => ih each heach (by omega)

/-- A value that nests less deep than reading allows is what its text is read as, whatever blanks
follow it. -/
theorem parse?_pretty {json : Json} (h : Plain 127 json) {after : String}
    (hafter : skipBlanks after.toList = []) : parse? (json.pretty ++ after) = some json := by
  rw [pretty, parse?, String.toList_append]
  have hfuel : (render 0 json).toList.length ≤
      2 * ((render 0 json).toList ++ after.toList).length + 2 := by
    rw [List.length_append]
    omega
  have hvalue := h.readsBack (Nat.lt_succ_self 127) 0 _ _ _
    (h.skipBlanks_render 0 after.toList) hfuel
  simp only [hvalue, hafter, List.isEmpty_nil, if_true]

end PlatformLink.Json
