import Mathlib.Data.String.Basic
import Mathlib.Order.Monotone.Basic

/-! # Texts in the order of their octets

Texts are compared character by character, which is the order of their octets in UTF-8: the octets
of a smaller character come before those of a greater one, whatever follows either
(`charNumbers_append_lt`). So texts, and lists of them, are ordered by the numbers of their octets:
`octetNumbers_le_iff`, `map_octetNumbers_le_iff`.
-/

namespace PlatformLink
set_option autoImplicit false

/-- The numbers of the octets of a text. -/
def octetNumbers (text : String) : List Nat := text.toUTF8.data.toList.map UInt8.toNat

def charNumbers (c : Char) : List Nat := (String.utf8EncodeChar c).map UInt8.toNat

theorem octetNumbers_eq (text : String) : octetNumbers text = text.toList.flatMap charNumbers := by
  have hofList : octetNumbers (String.ofList text.toList) =
      text.toList.flatMap charNumbers := by
    rw [octetNumbers, String.toUTF8_eq_toByteArray, String.toByteArray_ofList, List.utf8Encode,
      List.toList_data_toByteArray, List.map_flatMap]
    rfl
  rwa [String.ofList_toList] at hofList

/-! ## Characters -/

/-- The octets of a character by the size of its code. -/
inductive CharForm (v : Nat) : List Nat → Prop
  | one (h : v ≤ 0x7f) : CharForm v [v]
  | two (h : 0x7f < v) (h' : v ≤ 0x7ff) : CharForm v [v / 64 + 192, v % 64 + 128]
  | three (h : 0x7ff < v) (h' : v ≤ 0xffff) :
      CharForm v [v / 4096 + 224, v / 64 % 64 + 128, v % 64 + 128]
  | four (h : 0xffff < v) (h' : v < 0x110000) :
      CharForm v [v / 262144 + 240, v / 4096 % 64 + 128, v / 64 % 64 + 128, v % 64 + 128]

theorem charForm_charNumbers (c : Char) : CharForm c.val.toNat (charNumbers c) := by
  have hvalid : c.val.toNat < 0x110000 := by
    rcases c.valid with h | h
    · exact Nat.lt_trans h (by decide)
    · exact h.2
  unfold charNumbers String.utf8EncodeChar
  generalize c.val.toNat = v at hvalid
  dsimp only
  split
  next h =>
    have hfirst : v % 2 ^ 8 = v := by omega
    simp only [List.map_cons, List.map_nil, UInt8.toNat_ofNat', hfirst]
    exact .one h
  next h =>
    have hlast : (v % 64 + 128) % 2 ^ 8 = v % 64 + 128 := by omega
    have hthird : (v / 64 % 64 + 128) % 2 ^ 8 = v / 64 % 64 + 128 := by omega
    have hsecond : (v / 4096 % 64 + 128) % 2 ^ 8 = v / 4096 % 64 + 128 := by omega
    split
    next h' =>
      have hfirst : (v / 64 % 32 + 192) % 2 ^ 8 = v / 64 + 192 := by omega
      simp only [List.map_cons, List.map_nil, UInt8.toNat_ofNat', hfirst, hlast]
      exact .two (by omega) h'
    next h' =>
      split
      next h'' =>
        have hfirst : (v / 4096 % 16 + 224) % 2 ^ 8 = v / 4096 + 224 := by omega
        simp only [List.map_cons, List.map_nil, UInt8.toNat_ofNat', hfirst, hthird, hlast]
        exact .three (by omega) h''
      next h'' =>
        have hfirst : (v / 262144 % 8 + 240) % 2 ^ 8 = v / 262144 + 240 := by omega
        simp only [List.map_cons, List.map_nil, UInt8.toNat_ofNat', hfirst, hsecond, hthird,
          hlast]
        exact .four (by omega) hvalid

/-- Of two forms the one for the smaller code comes first, whatever follows them. -/
theorem CharForm.append_lt {v w : Nat} {ns ms : List Nat} (hv : CharForm v ns) (hw : CharForm w ms)
    (h : v < w) (x y : List Nat) : ns ++ x < ms ++ y := by
  cases hv <;> cases hw <;>
    simp only [List.cons_append, List.nil_append, List.cons_lt_cons_iff] <;>
    omega

theorem charNumbers_append_lt {c d : Char} (h : c < d) (x y : List Nat) :
    charNumbers c ++ x < charNumbers d ++ y :=
  (charForm_charNumbers c).append_lt (charForm_charNumbers d) h x y

theorem charNumbers_ne_nil (c : Char) : charNumbers c ≠ [] := by
  have hform := charForm_charNumbers c
  intro hnil
  rw [hnil] at hform
  cases hform

/-! ## Texts -/

theorem flatMap_charNumbers_lt {cs ds : List Char} (h : cs < ds) :
    cs.flatMap charNumbers < ds.flatMap charNumbers := by
  induction cs generalizing ds with
  | nil =>
    cases ds with
    | nil => exact absurd h (List.not_lt_nil _)
    | cons d ds =>
      rw [List.flatMap_nil, List.flatMap_cons]
      cases hd : charNumbers d with
      | nil => exact absurd hd (charNumbers_ne_nil d)
      | cons n ns => exact List.nil_lt_cons n _
  | cons c cs ih =>
    cases ds with
    | nil => exact absurd h (List.not_lt_nil _)
    | cons d ds =>
      rw [List.flatMap_cons, List.flatMap_cons]
      rcases List.cons_lt_cons_iff.1 h with hlt | ⟨rfl, hrest⟩
      · exact charNumbers_append_lt hlt _ _
      · exact List.append_left_lt (ih hrest)

theorem strictMono_octetNumbers : StrictMono octetNumbers := by
  intro a b h
  rw [octetNumbers_eq, octetNumbers_eq]
  exact flatMap_charNumbers_lt (String.lt_iff_toList_lt.1 h)

theorem octetNumbers_le_iff {a b : String} : octetNumbers a ≤ octetNumbers b ↔ a ≤ b :=
  strictMono_octetNumbers.le_iff_le

theorem map_octetNumbers_le_iff {as bs : List String} :
    as.map octetNumbers ≤ bs.map octetNumbers ↔ as ≤ bs := by
  have hmono : StrictMono (List.map octetNumbers) := fun _ _ h =>
    List.map_lt (fun _ _ hlt => strictMono_octetNumbers hlt) h
  exact hmono.le_iff_le

end PlatformLink
