import PlatformLink.Text.JavaText
import PlatformLink.Text.ModifiedUtf8
import PlatformLink.Proofs.Grammar

/-! # Texts that the second grammar takes

A text as it is written, every UTF-16 unit on its own in its shortest form, is Java's form of
CESU-8: `JavaText.accepts_encode`. The octets of a character below U+10000 are one form, those of
any other are a pair of surrogates.
-/

namespace PlatformLink
set_option autoImplicit false

namespace JavaText

open Utf8 (within isContinuation isTwoLead isThreeLead)

theorem beq_eq_false_of_toNat {a b : UInt8} {n : Nat} (hb : b.toNat = n) (h : a.toNat ≠ n) :
    (a == b) = false :=
  beq_eq_false_iff_ne.2 fun hab => h (hab ▸ hb)

theorem within_iff {low high : Nat} {b : UInt8} :
    within low high b = true ↔ low ≤ b.toNat ∧ b.toNat ≤ high := by
  simp [within]

theorem isContinuation_iff {b : UInt8} :
    isContinuation b = true ↔ 0x80 ≤ b.toNat ∧ b.toNat ≤ 0xbf :=
  within_iff

theorem isThreeLead_iff {a b : UInt8} : isThreeLead a b = true ↔
    ((a.toNat = 0xe0 ∧ 0xa0 ≤ b.toNat ∨ 0xe1 ≤ a.toNat ∧ a.toNat ≤ 0xec ∨
      0xee ≤ a.toNat ∧ a.toNat ≤ 0xef) ∧ 0x80 ≤ b.toNat ∧ b.toNat ≤ 0xbf) ∨
        (a.toNat = 0xed ∧ 0x80 ≤ b.toNat ∧ b.toNat ≤ 0x9f) := by
  have he0 : a.toNat = 0xe0 ↔ a = 0xe0 := toNat_eq_iff rfl
  have hed : a.toNat = 0xed ↔ a = 0xed := toNat_eq_iff rfl
  simp only [isThreeLead, Bool.or_eq_true, Bool.and_eq_true, within_iff, isContinuation_iff,
    beq_iff_eq, ← he0, ← hed]
  omega

theorem isCesu8_one {a : UInt8} (rest : Bytes) (low : 0 < a.toNat) (high : a.toNat < 0x80) :
    isCesu8 (a :: rest) = isCesu8 rest := by
  have h0 : (a == 0) = false := beq_eq_false_of_toNat rfl (Nat.ne_of_gt low)
  rw [isCesu8.eq_def]
  simp only [h0, Bool.false_eq_true, if_false, high, if_true]

theorem isCesu8_null (rest : Bytes) : isCesu8 (0xc0 :: 0x80 :: rest) = isCesu8 rest := by
  rw [isCesu8.eq_def]
  simp

theorem isCesu8_two {a b : UInt8} (rest : Bytes) (ha : isTwoLead a = true)
    (hb : isContinuation b = true) : isCesu8 (a :: b :: rest) = isCesu8 rest := by
  obtain ⟨low, high⟩ := within_iff.1 ha
  have h0 : (a == 0) = false := beq_eq_false_of_toNat (n := 0) rfl (by omega)
  have hc0 : (a == 0xc0) = false := beq_eq_false_of_toNat (n := 0xc0) rfl (by omega)
  have h80 : ¬ a.toNat < 0x80 := by omega
  rw [isCesu8.eq_def]
  simp only [h0, hc0, h80, ha, hb, Bool.false_eq_true, if_false, if_true, Bool.true_and]

/-- The octets that are none of the shorter forms. -/
theorem isCesu8_long {a : UInt8} (h : 0xe0 ≤ a.toNat) :
    (a == 0) = false ∧ ¬ a.toNat < 0x80 ∧ (a == 0xc0) = false ∧ isTwoLead a = false := by
  refine ⟨beq_eq_false_of_toNat (n := 0) rfl (by omega), by omega,
    beq_eq_false_of_toNat (n := 0xc0) rfl (by omega), ?_⟩
  rw [← Bool.not_eq_true, isTwoLead, within_iff]
  omega

theorem isCesu8_three {a b c : UInt8} (rest : Bytes) (ha : 0xe0 ≤ a.toNat)
    (hab : isThreeLead a b = true) (hc : isContinuation c = true) :
    isCesu8 (a :: b :: c :: rest) = isCesu8 rest := by
  obtain ⟨h0, h80, hc0, htwo⟩ := isCesu8_long ha
  rw [isCesu8.eq_def]
  simp only [h0, h80, hc0, htwo, hab, hc, Bool.false_eq_true, if_false, if_true, Bool.true_and]

theorem isCesu8_pair {b c e f : UInt8} (rest : Bytes) (hb : within 0xa0 0xaf b = true)
    (hc : isContinuation c = true) (he : within 0xb0 0xbf e = true)
    (hf : isContinuation f = true) :
    isCesu8 (0xed :: b :: c :: 0xed :: e :: f :: rest) = isCesu8 rest := by
  have hthree : isThreeLead 0xed b = false := by
    obtain ⟨low, -⟩ := within_iff.1 hb
    have hn : within 0x80 0x9f b = false := by
      rw [← Bool.not_eq_true, within_iff]
      omega
    simp only [isThreeLead, hn]
    rfl
  obtain ⟨h0, h80, hc0, htwo⟩ := @isCesu8_long 0xed (by decide)
  rw [isCesu8.eq_def]
  simp only [h0, h80, hc0, htwo, hthree, hb, hc, he, hf, Bool.false_eq_true, if_false, if_true,
    Bool.true_and, Bool.and_true, beq_self_eq_true]

open ModifiedUtf8 (encodeUnit)

theorem isContinuation_ofNat (n : Nat) : isContinuation (UInt8.ofNat (0x80 + n % 0x40)) = true := by
  have hn := Nat.mod_lt n (show 0 < 0x40 by decide)
  rw [isContinuation, within_iff, toNat_ofNat8 (by omega)]
  omega

/-- A unit that is no surrogate is a form of its own. -/
theorem isCesu8_encodeUnit {u : UInt16} (hu : u.toNat < 0xd800 ∨ 0xe000 ≤ u.toNat) (rest : Bytes) :
    isCesu8 (encodeUnit u ++ rest) = isCesu8 rest := by
  have hlt := u.toNat_lt
  simp only [encodeUnit]
  split
  · rename_i h
    refine isCesu8_one rest ?_ ?_ <;> rw [toNat_ofNat8 (by omega)]
    · exact h.1
    · exact h.2
  split
  · rename_i h1 h2
    by_cases hnull : u.toNat = 0
    · rw [hnull]
      exact isCesu8_null rest
    · refine isCesu8_two rest ?_ (isContinuation_ofNat _)
      rw [isTwoLead, within_iff, toNat_ofNat8 (by omega)]
      omega
  · rename_i h1 h2
    have ha := toNat_ofNat8 (show 0xe0 + u.toNat / 0x1000 ≤ 255 by omega)
    have hb := toNat_ofNat8 (show 0x80 + u.toNat / 0x40 % 0x40 ≤ 255 by omega)
    refine isCesu8_three rest (by omega) ?_ (isContinuation_ofNat _)
    rw [isThreeLead_iff, ha, hb]
    omega

/-- Two surrogates that belong together are a form. -/
theorem isCesu8_encodeUnit_pair {high low : UInt16} (hh : 0xd800 ≤ high.toNat ∧ high.toNat < 0xdc00)
    (hl : 0xdc00 ≤ low.toNat ∧ low.toNat < 0xe000) (rest : Bytes) :
    isCesu8 (encodeUnit high ++ (encodeUnit low ++ rest)) = isCesu8 rest := by
  have hlead (u : UInt16) (hu : 0xd800 ≤ u.toNat ∧ u.toNat < 0xe000) : encodeUnit u =
      [0xed, UInt8.ofNat (0x80 + u.toNat / 0x40 % 0x40), UInt8.ofNat (0x80 + u.toNat % 0x40)] := by
    have hd : u.toNat / 0x1000 = 0xd := by omega
    rw [encodeUnit]
    simp only [show ¬ (0 < u.toNat ∧ u.toNat < 0x80) by omega, show ¬ u.toNat < 0x800 by omega,
      if_false, hd]
    rfl
  rw [hlead high (by omega), hlead low (by omega)]
  refine isCesu8_pair rest ?_ (isContinuation_ofNat _) ?_ (isContinuation_ofNat _) <;>
    rw [within_iff, toNat_ofNat8 (by omega)] <;> omega

/-- The octets of a character are a form, or two that belong together. -/
theorem isCesu8_unitsOf (c : Char) (rest : Bytes) :
    isCesu8 ((Utf16.unitsOf c).flatMap encodeUnit ++ rest) = isCesu8 rest := by
  have hv : c.toNat < 0xd800 ∨ (0xdfff < c.toNat ∧ c.toNat < 0x110000) := c.valid
  simp only [Utf16.unitsOf]
  split
  · rename_i h
    rw [List.flatMap_singleton]
    refine isCesu8_encodeUnit ?_ rest
    rw [toNat_ofNat16 (by omega)]
    omega
  · rename_i h
    rw [List.flatMap_cons, List.flatMap_singleton, List.append_assoc]
    refine isCesu8_encodeUnit_pair ?_ ?_ rest <;> rw [toNat_ofNat16 (by omega)] <;> omega

/-- Every text as it is written is one of the second grammar. -/
theorem accepts_encode (text : String) : accepts (ModifiedUtf8.encode text) = true := by
  have hchars (cs : List Char) :
      isCesu8 (cs.flatMap fun c => (Utf16.unitsOf c).flatMap encodeUnit) = true := by
    induction cs with
    | nil => rfl
    | cons c cs ih => rw [List.flatMap_cons, isCesu8_unitsOf, ih]
  rw [accepts, ModifiedUtf8.encode, Utf16.encode, List.flatMap_assoc, hchars, Bool.or_true]

end JavaText

end PlatformLink
