/-! # UTF-16 code units

A character below U+10000 is one 16-bit unit, any other a high and a low surrogate.
`decode?` reads units back and refuses a surrogate without its partner.
-/

namespace PlatformLink.Utf16
set_option autoImplicit false

def unitsOf (c : Char) : List UInt16 :=
  let n := c.toNat
  if n < 0x10000 then [UInt16.ofNat n]
  else [UInt16.ofNat (0xd800 + (n - 0x10000) / 0x400), UInt16.ofNat (0xdc00 + (n - 0x10000) % 0x400)]

def encode (cs : List Char) : List UInt16 := cs.flatMap unitsOf

/-- Whether a unit is the first of a pair. -/
def isHigh (u : UInt16) : Bool := 0xd800 ≤ u.toNat && u.toNat < 0xdc00

/-- Whether a unit is the second of a pair. -/
def isLow (u : UInt16) : Bool := 0xdc00 ≤ u.toNat && u.toNat < 0xe000

/-- The character of a pair of surrogates. -/
def ofPair (high low : UInt16) : Char :=
  Char.ofNat (0x10000 + (high.toNat - 0xd800) * 0x400 + (low.toNat - 0xdc00))

/-- The characters of `units`, after those already `done` in reverse. -/
def decodeAfter (done : List Char) : List UInt16 → Option (List Char)
  | [] => some done.reverse
  | u :: rest =>
    if isHigh u then
      match rest with
      | v :: rest => if isLow v then decodeAfter (ofPair u v :: done) rest else none
      | [] => none
    else if isLow u then none
    else decodeAfter (Char.ofNat u.toNat :: done) rest

/-- The text with the given units, if every surrogate has its partner. -/
def decode? (units : List UInt16) : Option (List Char) := decodeAfter [] units

/-! ## Unit by unit -/

theorem decodeAfter_eq (done : List Char) (units : List UInt16) :
    decodeAfter done units = (decode? units).map (done.reverse ++ ·) := by
  match units with
  | [] => simp [decode?, decodeAfter]
  | u :: rest =>
    rw [decode?, decodeAfter.eq_def, decodeAfter.eq_def []]
    dsimp only
    split
    · match rest with
      | [] => rfl
      | v :: rest =>
        dsimp only
        split
        · rw [decodeAfter_eq, decodeAfter_eq [_]]
          cases decode? rest <;> simp
        · rfl
    · split
      · rfl
      · rw [decodeAfter_eq, decodeAfter_eq [_]]
        cases decode? rest <;> simp
termination_by units.length

/-- A pair of surrogates is read as one character. -/
theorem decode?_pair {high low : UInt16} (rest : List UInt16) (h : isHigh high = true)
    (l : isLow low = true) :
    decode? (high :: low :: rest) = (decode? rest).map (ofPair high low :: ·) := by
  rw [decode?, decodeAfter.eq_def]
  simp only [h, l, if_true]
  rw [decodeAfter_eq]
  rfl

theorem decode?_cons {u : UInt16} (rest : List UInt16) (h : isHigh u = false)
    (l : isLow u = false) :
    decode? (u :: rest) = (decode? rest).map (Char.ofNat u.toNat :: ·) := by
  rw [decode?, decodeAfter.eq_def]
  simp only [h, l, Bool.false_eq_true, if_false]
  rw [decodeAfter_eq]
  rfl

end PlatformLink.Utf16
