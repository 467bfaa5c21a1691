import PlatformLink.Bytes
import PlatformLink.Text.Utf16

/-! # Modified UTF-8

The form of text constants: every UTF-16 unit on its own in one to three octets, U+0000 in two.
`encode` writes the shortest form of each unit; `decode?` reads one-, two- and three-octet forms
of any unit, shortest or not, and refuses other lead octets, missing or wrong continuations, and
surrogates without a partner.
-/

namespace PlatformLink.ModifiedUtf8
set_option autoImplicit false

/-- The octets of one UTF-16 unit. -/
def encodeUnit (u : UInt16) : Bytes :=
  let n := u.toNat
  if 0 < n ∧ n < 0x80 then [UInt8.ofNat n]
  else if n < 0x800 then [UInt8.ofNat (0xc0 + n / 0x40), UInt8.ofNat (0x80 + n % 0x40)]
  else
    [UInt8.ofNat (0xe0 + n / 0x1000), UInt8.ofNat (0x80 + n / 0x40 % 0x40),
      UInt8.ofNat (0x80 + n % 0x40)]

def encode (text : String) : Bytes := (Utf16.encode text.toList).flatMap encodeUnit

/-- Whether an octet continues a longer form: its top bits are `10`. -/
def isContinuation (b : UInt8) : Bool := b.toNat / 0x40 == 2

/-- The unit whose high bits come from `a`, and whose low six from `b`. -/
def unit2 (a b : UInt8) : UInt16 := UInt16.ofNat (a.toNat % 0x20 * 0x40 + b.toNat % 0x40)

def unit3 (a b c : UInt8) : UInt16 :=
  UInt16.ofNat (a.toNat % 0x10 * 0x1000 + b.toNat % 0x40 * 0x40 + c.toNat % 0x40)

/-- The units of some octets, after those already `done` in reverse. -/
def unitsAfter (done : List UInt16) : Bytes → Option (List UInt16)
  | [] => some done.reverse
  | a :: rest =>
    if a.toNat < 0x80 then unitsAfter (UInt16.ofNat a.toNat :: done) rest
    else if a.toNat < 0xc0 then none
    else if a.toNat < 0xe0 then
      match rest with
      | b :: rest => if isContinuation b then unitsAfter (unit2 a b :: done) rest else none
      | [] => none
    else if a.toNat < 0xf0 then
      match rest with
      | b :: c :: rest =>
        if isContinuation b && isContinuation c then unitsAfter (unit3 a b c :: done) rest else none
      | _ => none
    else none

/-- The UTF-16 units of some octets. -/
def units? (bytes : Bytes) : Option (List UInt16) := unitsAfter [] bytes

theorem unitsAfter_eq (done : List UInt16) (bytes : Bytes) :
    unitsAfter done bytes = (units? bytes).map (done.reverse ++ ·) := by
  match bytes with
  | [] => simp [units?, unitsAfter]
  | a :: rest =>
    rw [units?, unitsAfter.eq_def, unitsAfter.eq_def []]
    dsimp only
    split
    · rw [unitsAfter_eq, unitsAfter_eq [_]]
      cases units? rest <;> simp
    · split
      · rfl
      · split
        · match rest with
          | [] => rfl
          | b :: rest =>
            dsimp only
            split
            · rw [unitsAfter_eq, unitsAfter_eq [_]]
              cases units? rest <;> simp
            · rfl
        · split
          · match rest with
            | [] => rfl
            | [_] => rfl
            | b :: c :: rest =>
              dsimp only
              split
              · rw [unitsAfter_eq, unitsAfter_eq [_]]
                cases units? rest <;> simp
              · rfl
          · rfl
termination_by bytes.length

@[simp] theorem units?_nil : units? [] = some [] := rfl

/-- A one-octet form, a NUL octet included. -/
theorem units?_one {a : UInt8} (rest : Bytes) (h : a.toNat < 0x80) :
    units? (a :: rest) = (units? rest).map (UInt16.ofNat a.toNat :: ·) := by
  rw [units?, unitsAfter.eq_def]
  simp only [h, if_true]
  rw [unitsAfter_eq]
  rfl

theorem units?_two {a b : UInt8} (rest : Bytes) (low : 0xc0 ≤ a.toNat) (high : a.toNat < 0xe0)
    (hb : isContinuation b = true) :
    units? (a :: b :: rest) = (units? rest).map (unit2 a b :: ·) := by
  have h1 : ¬ a.toNat < 0x80 := by omega
  have h2 : ¬ a.toNat < 0xc0 := by omega
  rw [units?, unitsAfter.eq_def]
  simp only [h1, h2, high, hb, if_true, if_false]
  rw [unitsAfter_eq]
  rfl

theorem units?_three {a b c : UInt8} (rest : Bytes) (low : 0xe0 ≤ a.toNat) (high : a.toNat < 0xf0)
    (hb : isContinuation b = true) (hc : isContinuation c = true) :
    units? (a :: b :: c :: rest) = (units? rest).map (unit3 a b c :: ·) := by
  have h1 : ¬ a.toNat < 0x80 := by omega
  have h2 : ¬ a.toNat < 0xc0 := by omega
  have h3 : ¬ a.toNat < 0xe0 := by omega
  rw [units?, unitsAfter.eq_def]
  simp only [h1, h2, h3, high, hb, hc, Bool.and_self, if_true, if_false]
  rw [unitsAfter_eq]
  rfl

def decode? (bytes : Bytes) : Option String := do
  let units ← units? bytes
  let chars ← Utf16.decode? units
  return String.ofList chars

end PlatformLink.ModifiedUtf8
