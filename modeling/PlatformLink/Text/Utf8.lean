import PlatformLink.Bytes

/-! # UTF-8

Which octets lead a character and which continue it, whether some octets are UTF-8 (`isUtf8`),
and the reading of octets that need not be (`decodeLossy`): wherever no character can be read,
the longest start of one, or else a single octet, stands for U+FFFD.
-/

namespace PlatformLink.Utf8
set_option autoImplicit false

/-! ## Forms -/

/-- Whether an octet lies in a range. -/
def within (low high : Nat) (b : UInt8) : Bool := low ≤ b.toNat && b.toNat ≤ high

/-- Whether an octet continues a longer form. -/
def isContinuation (b : UInt8) : Bool := within 0x80 0xbf b

/-- Whether an octet leads a two-octet character. -/
def isTwoLead (a : UInt8) : Bool := within 0xc2 0xdf a

/-- The lead octets of three-octet characters outside the surrogates, each with its second. -/
def isThreeLead (a b : UInt8) : Bool :=
  (a == 0xe0 && within 0xa0 0xbf b) || (within 0xe1 0xec a && isContinuation b) ||
    (a == 0xed && within 0x80 0x9f b) || (within 0xee 0xef a && isContinuation b)

/-- The lead octets of four-octet characters, each with its second. -/
def isFourLead (a b : UInt8) : Bool :=
  (a == 0xf0 && within 0x90 0xbf b) || (within 0xf1 0xf3 a && isContinuation b) ||
    (a == 0xf4 && within 0x80 0x8f b)

/-- Whether some octets are UTF-8. -/
def isUtf8 : Bytes → Bool
  | [] => true
  | a :: rest =>
    if a.toNat < 0x80 then isUtf8 rest
    else if isTwoLead a then
      match rest with
      | b :: rest => isContinuation b && isUtf8 rest
      | [] => false
    else if within 0xe0 0xef a then
      match rest with
      | b :: c :: rest => isThreeLead a b && isContinuation c && isUtf8 rest
      | _ => false
    else
      match rest with
      | b :: c :: d :: rest => isFourLead a b && isContinuation c && isContinuation d && isUtf8 rest
      | _ => false

/-! ## Reading what need not be UTF-8 -/

def replacement : Char := Char.ofNat 0xfffd

/-- The character whose code point has the given groups of six bits, high ones first. -/
def ofGroups (groups : List Nat) : Char :=
  Char.ofNat (groups.foldl (fun n group => n * 0x40 + group % 0x40) 0)

/-- Reads on in a character of which the groups of six bits in `groups` went before and `n`
continuations are missing: the character, or its replacement when one is missing, and what
follows. -/
def continued : List Nat → Nat → Bytes → Char × Bytes
  | groups, 0, rest => (ofGroups groups, rest)
  | _, _ + 1, [] => (replacement, [])
  | groups, n + 1, b :: rest =>
    if isContinuation b then continued (groups ++ [b.toNat]) n rest else (replacement, b :: rest)

/-- The first character of `a :: rest`, or its replacement, and what follows. -/
def firstChar (a : UInt8) (rest : Bytes) : Char × Bytes :=
  if a.toNat < 0x80 then (Char.ofNat a.toNat, rest)
  else if isTwoLead a then continued [a.toNat % 0x20] 1 rest
  else
    match rest with
    | [] => (replacement, [])
    | b :: more =>
      if isThreeLead a b then continued [a.toNat % 0x10, b.toNat] 1 more
      else if isFourLead a b then continued [a.toNat % 0x08, b.toNat] 2 more
      else (replacement, rest)

theorem length_continued_le (groups : List Nat) (n : Nat) (rest : Bytes) :
    (continued groups n rest).2.length ≤ rest.length := by
  induction n generalizing groups rest with
  | zero => simp [continued]
  | succ n ih =>
    cases rest with
    | nil => simp [continued]
    | cons b rest =>
      simp only [continued]
      split
      · exact Nat.le_succ_of_le (ih _ _)
      · exact Nat.le_refl _

theorem length_firstChar_le (a : UInt8) (rest : Bytes) :
    (firstChar a rest).2.length ≤ rest.length := by
  simp only [firstChar]
  split
  · exact Nat.le_refl _
  · split
    · exact length_continued_le _ _ _
    · cases rest with
      | nil => exact Nat.le_refl _
      | cons b more =>
        dsimp only
        split
        · exact Nat.le_succ_of_le (length_continued_le _ _ _)
        · split
          · exact Nat.le_succ_of_le (length_continued_le _ _ _)
          · exact Nat.le_refl _

def decodeLossy : Bytes → List Char
  | [] => []
  | a :: rest => (firstChar a rest).1 :: decodeLossy (firstChar a rest).2
termination_by octets => octets.length
decreasing_by exact Nat.lt_succ_of_le (length_firstChar_le a rest)

end PlatformLink.Utf8
