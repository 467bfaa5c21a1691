import PlatformLink.Text.ModifiedUtf8

/-! # Reading back what was written as text

`ModifiedUtf8.decode?_encode`: every text is read back from its octets. The units of a character
are never lone surrogates, and the octets of a unit are one of the three forms, so that both
layers read one character and one unit at a time. No NUL octet and no lead octet of a longer form is
among them (`ModifiedUtf8.encode_lossless`).
-/

namespace PlatformLink
set_option autoImplicit false

/-! ## Characters and units -/

namespace Utf16

theorem isHigh_isLow_of_char (c : Char) (h : c.toNat < 0x10000) :
    isHigh (UInt16.ofNat c.toNat) = false ∧ isLow (UInt16.ofNat c.toNat) = false := by
  have hn : (UInt16.ofNat c.toNat).toNat = c.toNat := by
    simp only [UInt16.toNat_ofNat']
    omega
  have hv : c.toNat < 0xd800 ∨ (0xdfff < c.toNat ∧ c.toNat < 0x110000) := c.valid
  simp only [isHigh, isLow, hn, Bool.and_eq_false_iff, decide_eq_false_iff_not]
  omega

theorem isHigh_isLow_of_pair (n : Nat) (low : 0x10000 ≤ n) (high : n < 0x110000) :
    isHigh (UInt16.ofNat (0xd800 + (n - 0x10000) / 0x400)) = true ∧
      isLow (UInt16.ofNat (0xdc00 + (n - 0x10000) % 0x400)) = true := by
  simp only [isHigh, isLow, UInt16.toNat_ofNat', Bool.and_eq_true, decide_eq_true_eq]
  omega

theorem ofPair_units (c : Char) (low : 0x10000 ≤ c.toNat) :
    ofPair (UInt16.ofNat (0xd800 + (c.toNat - 0x10000) / 0x400))
      (UInt16.ofNat (0xdc00 + (c.toNat - 0x10000) % 0x400)) = c := by
  have hv : c.toNat < 0xd800 ∨ (0xdfff < c.toNat ∧ c.toNat < 0x110000) := c.valid
  simp only [ofPair, UInt16.toNat_ofNat']
  have hn : 0x10000 + ((0xd800 + (c.toNat - 0x10000) / 0x400) % 2 ^ 16 - 0xd800) * 0x400 +
      ((0xdc00 + (c.toNat - 0x10000) % 0x400) % 2 ^ 16 - 0xdc00) = c.toNat := by omega
  rw [hn, Char.ofNat_toNat]

theorem decode?_unitsOf (c : Char) (rest : List UInt16) :
    decode? (unitsOf c ++ rest) = (decode? rest).map (c :: ·) := by
  simp only [unitsOf]
  by_cases h : c.toNat < 0x10000
  · obtain ⟨hh, hl⟩ := isHigh_isLow_of_char c h
    have hn : (UInt16.ofNat c.toNat).toNat = c.toNat := by
      simp only [UInt16.toNat_ofNat']
      omega
    rw [if_pos h, List.singleton_append, decode?_cons rest hh hl, hn, Char.ofNat_toNat]
  · have hv : c.toNat < 0xd800 ∨ (0xdfff < c.toNat ∧ c.toNat < 0x110000) := c.valid
    obtain ⟨hh, hl⟩ := isHigh_isLow_of_pair c.toNat (by omega) (by omega)
    rw [if_neg h]
    simp only [List.cons_append, List.nil_append]
    rw [decode?_pair rest hh hl, ofPair_units c (by omega)]

theorem decode?_encode (cs : List Char) : decode? (encode cs) = some cs := by
  induction cs with
  | nil => rfl
  | cons c cs ih =>
    have he : encode (c :: cs) = unitsOf c ++ encode cs := List.flatMap_cons
    rw [he, decode?_unitsOf, ih]
    rfl

end Utf16

/-! ## Units and octets -/

namespace ModifiedUtf8

theorem units?_encodeUnit (u : UInt16) (rest : Bytes) :
    units? (encodeUnit u ++ rest) = (units? rest).map (u :: ·) := by
  have hu := u.toNat_lt
  simp only [encodeUnit]
  split
  · rename_i h
    have ha : (UInt8.ofNat u.toNat).toNat = u.toNat := by
      simp only [UInt8.toNat_ofNat']
      omega
    rw [List.singleton_append, units?_one rest (by omega), ha, UInt16.ofNat_toNat]
  · split
    · have ha : (UInt8.ofNat (0xc0 + u.toNat / 0x40)).toNat = 0xc0 + u.toNat / 0x40 := by
        simp only [UInt8.toNat_ofNat']
        omega
      have hb : (UInt8.ofNat (0x80 + u.toNat % 0x40)).toNat = 0x80 + u.toNat % 0x40 := by
        simp only [UInt8.toNat_ofNat']
        omega
      have hc : isContinuation (UInt8.ofNat (0x80 + u.toNat % 0x40)) = true := by
        simp only [isContinuation, hb, beq_iff_eq]
        omega
      have he : unit2 (UInt8.ofNat (0xc0 + u.toNat / 0x40)) (UInt8.ofNat (0x80 + u.toNat % 0x40)) =
          u := by
        apply UInt16.toNat_inj.1
        simp only [unit2, ha, hb, UInt16.toNat_ofNat']
        omega
      simp only [List.cons_append, List.nil_append]
      rw [units?_two rest (by omega) (by omega) hc, he]
    · have ha : (UInt8.ofNat (0xe0 + u.toNat / 0x1000)).toNat = 0xe0 + u.toNat / 0x1000 := by
        simp only [UInt8.toNat_ofNat']
        omega
      have hb : (UInt8.ofNat (0x80 + u.toNat / 0x40 % 0x40)).toNat =
          0x80 + u.toNat / 0x40 % 0x40 := by
        simp only [UInt8.toNat_ofNat']
        omega
      have hc : (UInt8.ofNat (0x80 + u.toNat % 0x40)).toNat = 0x80 + u.toNat % 0x40 := by
        simp only [UInt8.toNat_ofNat']
        omega
      have hb' : isContinuation (UInt8.ofNat (0x80 + u.toNat / 0x40 % 0x40)) = true := by
        simp only [isContinuation, hb, beq_iff_eq]
        omega
      have hc' : isContinuation (UInt8.ofNat (0x80 + u.toNat % 0x40)) = true := by
        simp only [isContinuation, hc, beq_iff_eq]
        omega
      have he : unit3 (UInt8.ofNat (0xe0 + u.toNat / 0x1000))
          (UInt8.ofNat (0x80 + u.toNat / 0x40 % 0x40)) (UInt8.ofNat (0x80 + u.toNat % 0x40)) =
          u := by
        apply UInt16.toNat_inj.1
        simp only [unit3, ha, hb, hc, UInt16.toNat_ofNat']
        omega
      simp only [List.cons_append, List.nil_append]
      rw [units?_three rest (by omega) (by omega) hb' hc', he]

theorem units?_flatMap_encodeUnit (units : List UInt16) :
    units? (units.flatMap encodeUnit) = some units := by
  induction units with
  | nil => rfl
  | cons u units ih =>
    rw [List.flatMap_cons, units?_encodeUnit, ih]
    rfl

/-- Every text is read back from its octets. -/
theorem decode?_encode (text : String) : decode? (encode text) = some text := by
  simp only [decode?, encode, units?_flatMap_encodeUnit, Utf16.decode?_encode, Option.bind_eq_bind,
    Option.bind_some, String.ofList_toList]
  rfl

theorem encode_injective {text text' : String} (h : encode text = encode text') : text = text' := by
  have hd := decode?_encode text
  rw [h, decode?_encode] at hd
  exact (Option.some.inj hd).symm

/-- No character goes without an octet. -/
theorem length_toList_le_length_encode (text : String) :
    text.toList.length ≤ (encode text).length := by
  have grows {α β : Type} {f : α → List β} (hf : ∀ a, 1 ≤ (f a).length) (as : List α) :
      as.length ≤ (as.flatMap f).length := by
    induction as with
    | nil => exact Nat.le_refl 0
    | cons a as ih =>
      have ha := hf a
      rw [List.flatMap_cons, List.length_append, List.length_cons]
      omega
  have hunits (c : Char) : 1 ≤ (Utf16.unitsOf c).length := by
    unfold Utf16.unitsOf
    dsimp only
    split <;> simp
  have hoctets (u : UInt16) : 1 ≤ (encodeUnit u).length := by
    unfold encodeUnit
    dsimp only
    split
    · simp
    split <;> simp
  exact Nat.le_trans (grows hunits _) (grows hoctets _)

/-! ## Octets that do not occur -/

theorem bounds_of_mem_encodeUnit {u : UInt16} {octet : UInt8} (h : octet ∈ encodeUnit u) :
    0 < octet.toNat ∧ octet.toNat < 0xf0 := by
  have hu := u.toNat_lt
  have hof (n : Nat) (hn : 0 < n ∧ n < 0xf0) :
      0 < (UInt8.ofNat n).toNat ∧ (UInt8.ofNat n).toNat < 0xf0 := by
    rw [UInt8.toNat_ofNat']
    omega
  simp only [encodeUnit] at h
  split at h
  · rename_i hone
    rw [List.mem_singleton.1 h]
    exact hof _ (by omega)
  split at h
  · simp only [List.mem_cons, List.not_mem_nil, or_false] at h
    rcases h with rfl | rfl <;> exact hof _ (by omega)
  · simp only [List.mem_cons, List.not_mem_nil, or_false] at h
    rcases h with rfl | rfl | rfl <;> exact hof _ (by omega)

theorem bounds_of_mem_encode {text : String} {octet : UInt8} (h : octet ∈ encode text) :
    0 < octet.toNat ∧ octet.toNat < 0xf0 := by
  obtain ⟨u, -, hoctet⟩ := List.mem_flatMap.1 h
  exact bounds_of_mem_encodeUnit hoctet

/-- Every text is read back from its octets, which are neither NUL nor the lead of a form longer
than three octets, and no other text has the same octets. -/
theorem encode_lossless (text : String) :
    decode? (encode text) = some text ∧
      (∀ octet ∈ encode text, octet ≠ 0x00 ∧ octet < 0xf0) ∧
      ∀ other, encode other = encode text ↔ other = text := by
  refine ⟨decode?_encode text, fun octet hoctet => ?_, fun other => ⟨encode_injective, congrArg _⟩⟩
  obtain ⟨hpos, hlt⟩ := bounds_of_mem_encode hoctet
  refine ⟨?_, hlt⟩
  rintro rfl
  exact absurd hpos (Nat.lt_irrefl 0)

/-- Characters at the ends of the ranges of each form, and a pair of surrogates. -/
def everyForm : String := "a\x00\u007f\u0080\u07ff\u0800\uffff😀"

theorem encode_lossless_everyForm :
    decode? (encode everyForm) = some everyForm ∧
      (0x80 : UInt8) ∈ encode everyForm ∧ ((0x80 : UInt8) ≠ 0x00 ∧ (0x80 : UInt8) < 0xf0) ∧
      encode "a" ≠ encode everyForm := by
  obtain ⟨hdecode, hoctets, hinjective⟩ := encode_lossless everyForm
  have hmem : (0x80 : UInt8) ∈ encode everyForm := by decide +kernel
  exact ⟨hdecode, hmem, hoctets _ hmem, (not_congr (hinjective "a")).2 (by decide)⟩

end ModifiedUtf8

end PlatformLink
