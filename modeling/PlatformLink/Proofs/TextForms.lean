import PlatformLink.Proofs.InterningSpec

/-! # Which octets are a text

A text constant is a row of forms (`ModifiedUtf8.Form`) whose units are the text's:
`ModifiedUtf8.decode?_eq_some_iff`. A form need not be the shortest one of its unit, so a text has
many spellings, of which one is written; a constant that was read is found again by its text exactly
when it has this one (`ModifiedUtf8.spellings_spec`).
-/

namespace PlatformLink
set_option autoImplicit false

/-! ## Units of a text -/

namespace Utf16

theorem isHigh_iff {u : UInt16} : isHigh u = true ↔ 0xd800 ≤ u.toNat ∧ u.toNat < 0xdc00 := by
  simp [isHigh]

theorem isLow_iff {u : UInt16} : isLow u = true ↔ 0xdc00 ≤ u.toNat ∧ u.toNat < 0xe000 := by
  simp [isLow]

theorem toNat_charOfNat {n : Nat} (h : n < 0xd800 ∨ 0xdfff < n ∧ n < 0x110000) :
    (Char.ofNat n).toNat = n := by
  have hv : n.isValidChar := h
  rw [Char.ofNat, dif_pos hv]
  rfl

theorem unitsOf_ofPair {high low : UInt16} (hh : isHigh high = true) (hl : isLow low = true) :
    unitsOf (ofPair high low) = [high, low] := by
  rw [isHigh_iff] at hh
  rw [isLow_iff] at hl
  have hn := toNat_charOfNat
    (n := 0x10000 + (high.toNat - 0xd800) * 0x400 + (low.toNat - 0xdc00)) (by omega)
  have h1 : UInt16.ofNat (0xd800 + ((ofPair high low).toNat - 0x10000) / 0x400) = high := by
    apply UInt16.toNat_inj.1
    rw [ofPair, hn, UInt16.toNat_ofNat']
    omega
  have h2 : UInt16.ofNat (0xdc00 + ((ofPair high low).toNat - 0x10000) % 0x400) = low := by
    apply UInt16.toNat_inj.1
    rw [ofPair, hn, UInt16.toNat_ofNat']
    omega
  have hwide : ¬ (ofPair high low).toNat < 0x10000 := by
    rw [ofPair, hn]
    omega
  simp only [unitsOf, if_neg hwide, h1, h2]

theorem unitsOf_ofNat {u : UInt16} (hh : isHigh u = false) (hl : isLow u = false) :
    unitsOf (Char.ofNat u.toNat) = [u] := by
  have hu := u.toNat_lt
  rw [← Bool.not_eq_true, isHigh_iff] at hh
  rw [← Bool.not_eq_true, isLow_iff] at hl
  have hn := toNat_charOfNat (n := u.toNat) (by omega)
  simp only [unitsOf, hn, if_pos hu, UInt16.ofNat_toNat]

theorem encode_cons (c : Char) (cs : List Char) : encode (c :: cs) = unitsOf c ++ encode cs :=
  List.flatMap_cons

theorem eq_encode_of_decodeAfter {done cs : List Char} {units : List UInt16}
    (h : decodeAfter done units = some cs) :
    ∃ more, cs = done.reverse ++ more ∧ units = encode more := by
  fun_induction decodeAfter done units with
  | case1 done =>
    cases h
    exact ⟨[], (List.append_nil _).symm, rfl⟩
  | case2 done u hhigh v rest hlow ih =>
    obtain ⟨more, rfl, rfl⟩ := ih h
    refine ⟨ofPair u v :: more, by simp, ?_⟩
    rw [encode_cons, unitsOf_ofPair hhigh hlow]
    rfl
  | case3 => cases h
  | case4 => cases h
  | case5 => cases h
  | case6 done u rest hhigh hlow ih =>
    obtain ⟨more, rfl, rfl⟩ := ih h
    refine ⟨Char.ofNat u.toNat :: more, by simp, ?_⟩
    rw [Bool.not_eq_true] at hhigh hlow
    rw [encode_cons, unitsOf_ofNat hhigh hlow]
    rfl

/-- The units of a text are read as that text, and no other units are read. -/
theorem decode?_eq_some_iff {units : List UInt16} {cs : List Char} :
    decode? units = some cs ↔ units = encode cs := by
  constructor
  · intro h
    obtain ⟨more, rfl, rfl⟩ := eq_encode_of_decodeAfter h
    rfl
  · rintro rfl
    exact decode?_encode cs

end Utf16

/-! ## Forms of a unit -/

namespace ModifiedUtf8

/-- The octets of one unit: the first says how many there are, and the others continue it. -/
inductive Form where
  | one (a : UInt8) (lead : a.toNat < 0x80)
  | two (a b : UInt8) (lead : 0xc0 ≤ a.toNat ∧ a.toNat < 0xe0) (second : isContinuation b = true)
  | three (a b c : UInt8) (lead : 0xe0 ≤ a.toNat ∧ a.toNat < 0xf0)
    (second : isContinuation b = true) (third : isContinuation c = true)

namespace Form

def octets : Form → Bytes
  | .one a _ => [a]
  | .two a b _ _ => [a, b]
  | .three a b c _ _ _ => [a, b, c]

def unit : Form → UInt16
  | .one a _ => UInt16.ofNat a.toNat
  | .two a b _ _ => unit2 a b
  | .three a b c _ _ _ => unit3 a b c

/-- The least unit that needs a form of this length; for U+0000 one octet is not enough. -/
def IsShortest (f : Form) : Prop :=
  match f with
  | .one _ _ => f.unit.toNat ≠ 0
  | .two _ _ _ _ => f.unit.toNat = 0 ∨ 0x80 ≤ f.unit.toNat
  | .three _ _ _ _ _ _ => 0x800 ≤ f.unit.toNat

theorem isContinuation_iff {b : UInt8} :
    isContinuation b = true ↔ 0x80 ≤ b.toNat ∧ b.toNat < 0xc0 := by
  rw [isContinuation, beq_iff_eq]
  omega

/-- At most one form stands in front of some octets. -/
theorem append_inj {f g : Form} {rest rest' : Bytes} (h : f.octets ++ rest = g.octets ++ rest') :
    f = g ∧ rest = rest' := by
  cases f <;> cases g <;>
    simp only [octets, List.cons_append, List.nil_append, List.cons.injEq] at h
  case one.one => simp [h]
  case two.two => simp [h]
  case three.three => simp [h]
  all_goals
    obtain ⟨rfl, -⟩ := h
    omega

theorem toNat_unit_two {a b : UInt8} (lead : 0xc0 ≤ a.toNat ∧ a.toNat < 0xe0) :
    (unit2 a b).toNat = (a.toNat - 0xc0) * 0x40 + b.toNat % 0x40 := by
  rw [unit2, UInt16.toNat_ofNat']
  omega

theorem toNat_unit_three {a b c : UInt8} (lead : 0xe0 ≤ a.toNat ∧ a.toNat < 0xf0) :
    (unit3 a b c).toNat =
      (a.toNat - 0xe0) * 0x1000 + b.toNat % 0x40 * 0x40 + c.toNat % 0x40 := by
  rw [unit3, UInt16.toNat_ofNat']
  omega

theorem encodeUnit_one {u : UInt16} (h : 0 < u.toNat ∧ u.toNat < 0x80) :
    encodeUnit u = [UInt8.ofNat u.toNat] := by
  simp only [encodeUnit, if_pos h]

theorem encodeUnit_two {u : UInt16} (h : u.toNat = 0 ∨ 0x80 ≤ u.toNat) (lt : u.toNat < 0x800) :
    encodeUnit u =
      [UInt8.ofNat (0xc0 + u.toNat / 0x40), UInt8.ofNat (0x80 + u.toNat % 0x40)] := by
  have hone : ¬ (0 < u.toNat ∧ u.toNat < 0x80) := by omega
  simp only [encodeUnit, if_neg hone, if_pos lt]

theorem encodeUnit_three {u : UInt16} (h : 0x800 ≤ u.toNat) :
    encodeUnit u = [UInt8.ofNat (0xe0 + u.toNat / 0x1000),
      UInt8.ofNat (0x80 + u.toNat / 0x40 % 0x40), UInt8.ofNat (0x80 + u.toNat % 0x40)] := by
  have hone : ¬ (0 < u.toNat ∧ u.toNat < 0x80) := by omega
  have htwo : ¬ u.toNat < 0x800 := by omega
  simp only [encodeUnit, if_neg hone, if_neg htwo]

theorem ofNat_eq {a : UInt8} {n : Nat} (h : n = a.toNat) : UInt8.ofNat n = a := by
  rw [h, UInt8.ofNat_toNat]

/-- A unit is written in its shortest form, and in no other. -/
theorem encodeUnit_unit_iff (f : Form) : encodeUnit f.unit = f.octets ↔ f.IsShortest := by
  -- a form that is too long differs from what is written by its length already
  cases f with
  | one a lead =>
    show encodeUnit (UInt16.ofNat a.toNat) = [a] ↔ (UInt16.ofNat a.toNat).toNat ≠ 0
    have hn : (UInt16.ofNat a.toNat).toNat = a.toNat := by
      rw [UInt16.toNat_ofNat']
      omega
    by_cases h0 : a.toNat = 0
    · rw [encodeUnit_two (by omega) (by omega)]
      simp [h0]
    · rw [encodeUnit_one (by omega), hn, ofNat_eq rfl]
      simp [h0]
  | two a b lead second =>
    show encodeUnit (unit2 a b) = [a, b] ↔ (unit2 a b).toNat = 0 ∨ 0x80 ≤ (unit2 a b).toNat
    have hn := @toNat_unit_two a b lead
    rw [isContinuation_iff] at second
    by_cases hshort : (unit2 a b).toNat = 0 ∨ 0x80 ≤ (unit2 a b).toNat
    · rw [encodeUnit_two hshort (by omega), ofNat_eq (a := a) (by omega),
        ofNat_eq (a := b) (by omega)]
      simp only [hshort]
    · rw [encodeUnit_one (by omega)]
      simp [hshort]
  | three a b c lead second third =>
    show encodeUnit (unit3 a b c) = [a, b, c] ↔ 0x800 ≤ (unit3 a b c).toNat
    have hn := @toNat_unit_three a b c lead
    rw [isContinuation_iff] at second third
    by_cases hthree : 0x800 ≤ (unit3 a b c).toNat
    · rw [encodeUnit_three hthree, ofNat_eq (a := a) (by omega), ofNat_eq (a := b) (by omega),
        ofNat_eq (a := c) (by omega)]
      simp only [hthree]
    by_cases hone : 0 < (unit3 a b c).toNat ∧ (unit3 a b c).toNat < 0x80
    · rw [encodeUnit_one hone]
      simp [hthree]
    · rw [encodeUnit_two (by omega) (by omega)]
      simp [hthree]

/-- A form is read as its unit. -/
theorem units?_octets (f : Form) (rest : Bytes) :
    units? (f.octets ++ rest) = (units? rest).map (f.unit :: ·) := by
  cases f with
  | one a lead => exact units?_one rest lead
  | two a b lead second => exact units?_two rest lead.1 lead.2 second
  | three a b c lead second third => exact units?_three rest lead.1 lead.2 second third

end Form

theorem exists_forms_of_unitsAfter {done units : List UInt16} {octets : Bytes}
    (h : unitsAfter done octets = some units) :
    ∃ forms : List Form, octets = forms.flatMap Form.octets ∧
      units = done.reverse ++ forms.map Form.unit := by
  have step {done : List UInt16} {octets : Bytes} (f : Form)
      (ih : ∃ forms : List Form, octets = forms.flatMap Form.octets ∧
        units = (f.unit :: done).reverse ++ forms.map Form.unit) :
      ∃ forms : List Form, f.octets ++ octets = forms.flatMap Form.octets ∧
        units = done.reverse ++ forms.map Form.unit := by
    obtain ⟨forms, rfl, rfl⟩ := ih
    exact ⟨f :: forms, List.flatMap_cons.symm, by simp⟩
  fun_induction unitsAfter done octets with
  | case1 done =>
    cases h
    exact ⟨[], rfl, (List.append_nil _).symm⟩
  | case2 done a rest hone ih => exact step (.one a hone) (ih h)
  | case4 done a h1 h2 h3 b rest hb ih => exact step (.two a b (by omega) hb) (ih h)
  | case7 done a h1 h2 h3 h4 b c rest hbc ih =>
    rw [Bool.and_eq_true] at hbc
    exact step (.three a b c (by omega) hbc.1 hbc.2) (ih h)
  | _ => cases h

/-- To read units is to cut the octets into forms. -/
theorem units?_eq_some_iff {octets : Bytes} {units : List UInt16} :
    units? octets = some units ↔
      ∃ forms : List Form, octets = forms.flatMap Form.octets ∧ units = forms.map Form.unit := by
  constructor
  · exact exists_forms_of_unitsAfter
  · rintro ⟨forms, rfl, rfl⟩
    induction forms with
    | nil => rfl
    | cons f forms ih =>
      rw [List.flatMap_cons, Form.units?_octets, ih]
      rfl

/-- The form in which a unit is written. -/
theorem Form.exists_encodeUnit (u : UInt16) : ∃ f : Form, f.octets = encodeUnit u ∧ f.unit = u := by
  have hread := units?_encodeUnit u []
  rw [List.append_nil, units?_nil] at hread
  obtain ⟨forms, hoctets, hunits⟩ := units?_eq_some_iff.1 hread
  obtain ⟨f, rfl, hf⟩ := List.map_eq_singleton_iff.1 hunits.symm
  rw [List.flatMap_singleton] at hoctets
  exact ⟨f, hoctets.symm, hf⟩

/-! ## Spellings -/

/-- The octets are these forms, and their units are those of the text. -/
structure Spells (forms : List Form) (octets : Bytes) (text : String) : Prop where
  octets : octets = forms.flatMap Form.octets
  units : forms.map Form.unit = Utf16.encode text.toList

/-- A text is read from its spellings, and from nothing else. -/
theorem decode?_eq_some_iff {octets : Bytes} {text : String} :
    decode? octets = some text ↔ ∃ forms, Spells forms octets text := by
  rw [decode?, Option.bind_eq_bind, Option.bind_eq_some_iff]
  constructor
  · rintro ⟨units, hunits, h⟩
    rw [Option.bind_eq_bind, Option.bind_eq_some_iff] at h
    obtain ⟨cs, hcs, h⟩ := h
    cases h
    obtain ⟨forms, hoctets, rfl⟩ := units?_eq_some_iff.1 hunits
    refine ⟨forms, hoctets, ?_⟩
    rw [String.toList_ofList]
    exact Utf16.decode?_eq_some_iff.1 hcs
  · rintro ⟨forms, hoctets, hunits⟩
    refine ⟨forms.map Form.unit, units?_eq_some_iff.2 ⟨forms, hoctets, rfl⟩, ?_⟩
    rw [Utf16.decode?_eq_some_iff.2 hunits]
    exact congrArg some String.ofList_toList

theorem flatMap_encodeUnit_eq_iff {forms : List Form} :
    (forms.map Form.unit).flatMap encodeUnit = forms.flatMap Form.octets ↔
      ∀ f ∈ forms, f.IsShortest := by
  induction forms with
  | nil => simp
  | cons f forms ih =>
    rw [List.map_cons, List.flatMap_cons, List.flatMap_cons, List.forall_mem_cons, ← ih,
      ← f.encodeUnit_unit_iff]
    constructor
    · intro h
      obtain ⟨g, hg, -⟩ := Form.exists_encodeUnit f.unit
      rw [← hg] at h ⊢
      obtain ⟨rfl, hrest⟩ := Form.append_inj h
      exact ⟨rfl, hrest⟩
    · rintro ⟨hf, hforms⟩
      rw [hf, hforms]

/-- A spelling is the one that is written when its forms are the shortest, and only then. -/
theorem Spells.encode_eq_iff {forms : List Form} {octets : Bytes} {text : String}
    (h : Spells forms octets text) : encode text = octets ↔ ∀ f ∈ forms, f.IsShortest := by
  rw [encode, ← h.units, h.octets, flatMap_encodeUnit_eq_iff]

end ModifiedUtf8

/-! ## Constants that are found again -/

namespace ConstantPool

theorem text_of_holds {pool : ConstantPool} {index : UInt16} {octets : Bytes}
    (h : pool.Holds index (.utf8 octets)) :
    pool.text index = match ModifiedUtf8.decode? octets with
      | some text => .ok text
      | none => .error .invalidText := by
  have hget : pool.get index = .ok (.utf8 octets) := get_eq_ok_iff.2 ⟨h, by simp⟩
  rw [ConstantPool.text, hget]
  rfl

theorem Holds.exists_isFirst {pool : ConstantPool} {index : UInt16} {c : Constant}
    (h : pool.Holds index c) : ∃ first, pool.IsFirst first c := by
  cases hfound : pool.entries.findIdx? (· == c) with
  | none =>
    obtain ⟨hi, hc⟩ := Array.getElem?_eq_some_iff.1 h.2
    have hne := Array.findIdx?_eq_none_iff.1 hfound _ (Array.getElem_mem hi)
    simp [hc] at hne
  | some i => exact ⟨_, isFirst_of_findIdx? hfound⟩

/-- Interning the text gives an index of the constant with these octets, and adds nothing. -/
def Finds (pool : ConstantPool) (text : String) (octets : Bytes) : Prop :=
  ∃ index, Interning.text text pool = (.ok index, pool) ∧ pool.Holds index (.utf8 octets)

theorem finds_iff {pool : ConstantPool} {index : UInt16} {octets : Bytes} {text : String}
    (h : pool.Holds index (.utf8 octets)) :
    pool.Finds text octets ↔ ModifiedUtf8.encode text = octets := by
  constructor
  · rintro ⟨first, hfound, hholds⟩
    obtain ⟨-, hfirst⟩ := (Interning.Spec.text text).sound hfound
    have hsame := hfirst.1.2.symm.trans hholds.2
    simpa using hsame
  · rintro rfl
    obtain ⟨first, hfirst⟩ := h.exists_isFirst
    exact ⟨first, (Interning.Spec.text text).settled hfirst, hfirst.1⟩

end ConstantPool

namespace ModifiedUtf8

/-- The octets that are read as a text are its spellings. The one of shortest forms is written, and
a constant with another one is not found by its text. -/
theorem spellings_spec (octets : Bytes) :
    (∀ text, decode? octets = some text ↔ ∃ forms, Spells forms octets text) ∧
      (∀ forms text, Spells forms octets text →
        (encode text = octets ↔ ∀ f ∈ forms, f.IsShortest)) ∧
      ∀ (pool : ConstantPool) (index : UInt16), pool.Holds index (.utf8 octets) →
        (pool.text index = .error .invalidText ↔ ∀ forms text, ¬ Spells forms octets text) ∧
          ∀ forms text, Spells forms octets text → pool.text index = .ok text ∧
            (pool.Finds text octets ↔ ∀ f ∈ forms, f.IsShortest) := by
  refine ⟨fun text => decode?_eq_some_iff, fun forms text h => h.encode_eq_iff,
    fun pool index hholds => ⟨?_, fun forms text h => ⟨?_, ?_⟩⟩⟩
  · rw [ConstantPool.text_of_holds hholds]
    cases hd : decode? octets with
    | none =>
      simp only [true_iff]
      intro forms text h
      rw [decode?_eq_some_iff.2 ⟨forms, h⟩] at hd
      cases hd
    | some text =>
      obtain ⟨forms, h⟩ := decode?_eq_some_iff.1 hd
      simp only [reduceCtorEq, false_iff]
      exact fun hnone => hnone forms text h
  · rw [ConstantPool.text_of_holds hholds, decode?_eq_some_iff.2 ⟨forms, h⟩]
  · rw [ConstantPool.finds_iff hholds, h.encode_eq_iff]

/-- The letter A in two octets. -/
def longForm : Form := .two 0xc1 0x81 (by decide) (by decide)

/-- A pool whose only text has a form that is too long. -/
def longPool : ConstantPool := ⟨#[.utf8 longForm.octets], by decide⟩

theorem spellings_spec_longForm :
    Spells [longForm] longForm.octets "A" ∧ longPool.Holds 1 (.utf8 longForm.octets) ∧
      decode? longForm.octets = some "A" ∧ ¬ encode "A" = longForm.octets ∧
      longPool.text 1 = .ok "A" ∧ ¬ longPool.Finds "A" longForm.octets := by
  have hspells : Spells [longForm] longForm.octets "A" := ⟨rfl, by decide⟩
  have hholds : longPool.Holds 1 (.utf8 longForm.octets) := ⟨by decide, rfl⟩
  have hlong : ¬ ∀ f ∈ [longForm], f.IsShortest := by
    intro h
    have hshort : longForm.unit.toNat = 0 ∨ 0x80 ≤ longForm.unit.toNat := h _ List.mem_cons_self
    revert hshort
    decide
  obtain ⟨hdecode, hencode, hpool⟩ := spellings_spec longForm.octets
  obtain ⟨-, hread⟩ := hpool longPool 1 hholds
  obtain ⟨htext, hfinds⟩ := hread _ _ hspells
  exact ⟨hspells, hholds, (hdecode "A").2 ⟨_, hspells⟩, fun h => hlong ((hencode _ _ hspells).1 h),
    htext, fun h => hlong (hfinds.1 h)⟩

/-- A NUL octet is read as a character, and so is a form that is too long; neither is written so,
and to intern the text again makes another constant. -/
theorem decode?_not_encoded :
    decode? [0x00] = some "\x00" ∧ encode "\x00" = [0xc0, 0x80] ∧
      decode? [0xc1, 0x81] = some "A" ∧ encode "A" = [0x41] ∧
      (Interning.text "A" longPool).1 = .ok 2 ∧
      (Interning.text "A" longPool).2.entries = #[.utf8 [0xc1, 0x81], .utf8 [0x41]] := by
  decide +kernel

end ModifiedUtf8

end PlatformLink
