/-! # Octets and big-endian numbers

Class files are sequences of octets in which every number is big-endian. A number is written by
its base-256 digits and read back by `ofBe16` and `ofBe32`; a count that is too large for its field
keeps its low digits (`count16`, `count32`).
-/

namespace PlatformLink
set_option autoImplicit false

abbrev Bytes := List UInt8

/-! ## Writing -/

/-- The two octets of a 16-bit number, high one first. -/
def be16 (n : UInt16) : Bytes :=
  [UInt8.ofNat (n.toNat / 256), UInt8.ofNat n.toNat]

/-- The four octets of a 32-bit number, high one first. -/
def be32 (n : UInt32) : Bytes :=
  [UInt8.ofNat (n.toNat / 16777216), UInt8.ofNat (n.toNat / 65536),
    UInt8.ofNat (n.toNat / 256), UInt8.ofNat n.toNat]

/-- The eight octets of a 64-bit number, high one first. -/
def be64 (n : UInt64) : Bytes :=
  be32 (UInt32.ofNat (n.toNat / 4294967296)) ++ be32 (UInt32.ofNat n.toNat)

/-- A 16-bit count field; a larger count is taken modulo 65536. -/
def count16 (n : Nat) : Bytes := be16 (UInt16.ofNat n)

/-- A 32-bit length field; a larger length is taken modulo 2 ^ 32. -/
def count32 (n : Nat) : Bytes := be32 (UInt32.ofNat n)

@[simp] theorem be16_length (n : UInt16) : (be16 n).length = 2 := rfl
@[simp] theorem be32_length (n : UInt32) : (be32 n).length = 4 := rfl
@[simp] theorem count16_length (n : Nat) : (count16 n).length = 2 := rfl
@[simp] theorem count32_length (n : Nat) : (count32 n).length = 4 := rfl

/-! ## Reading -/

/-- The 16-bit number of two octets. -/
def ofBe16 (a b : UInt8) : UInt16 := UInt16.ofNat (a.toNat * 256 + b.toNat)

/-- The 32-bit number of two halves. -/
def ofHalves32 (high low : UInt16) : UInt32 := UInt32.ofNat (high.toNat * 65536 + low.toNat)

/-- The 32-bit number of four octets. -/
def ofBe32 (a b c d : UInt8) : UInt32 := ofHalves32 (ofBe16 a b) (ofBe16 c d)

/-- The 64-bit number of two halves. -/
def ofHalves64 (high low : UInt32) : UInt64 :=
  UInt64.ofNat (high.toNat * 4294967296 + low.toNat)

/-- The two's complement reading of a 32-bit number. -/
def signed32 (n : UInt32) : Int :=
  if n.toNat < 2147483648 then (n.toNat : Int) else (n.toNat : Int) - 4294967296

@[simp] theorem toNat_ofBe16 (a b : UInt8) : (ofBe16 a b).toNat = a.toNat * 256 + b.toNat := by
  have ha := a.toNat_lt
  have hb := b.toNat_lt
  simp only [ofBe16, UInt16.toNat_ofNat']
  omega

/-- Writing the number of two octets gives the octets back. -/
theorem be16_ofBe16 (a b : UInt8) : be16 (ofBe16 a b) = [a, b] := by
  have hb := b.toNat_lt
  have h1 : (a.toNat * 256 + b.toNat) / 256 = a.toNat := by omega
  simp only [be16, toNat_ofBe16, h1, UInt8.ofNat_toNat]
  congr 2
  apply UInt8.toNat_inj.1
  simp only [UInt8.toNat_ofNat']
  omega

/-- A 16-bit number is the number of its two octets. -/
theorem ofBe16_be16 (n : UInt16) :
    ofBe16 (UInt8.ofNat (n.toNat / 256)) (UInt8.ofNat n.toNat) = n := by
  have hn := n.toNat_lt
  apply UInt16.toNat_inj.1
  simp only [toNat_ofBe16, UInt8.toNat_ofNat']
  omega

/-! ## Cutting -/

/-- The first `n` octets and the rest, when there are as many. -/
def splitExact? (n : Nat) (bytes : Bytes) : Option (Bytes × Bytes) :=
  let taken := bytes.take n
  if taken.length = n then some (taken, bytes.drop n) else none

theorem splitExact?_eq_some_iff {n : Nat} {bytes front back : Bytes} :
    splitExact? n bytes = some (front, back) ↔ bytes = front ++ back ∧ front.length = n := by
  simp only [splitExact?]
  constructor
  · intro h
    split at h
    · rename_i hlen
      cases h
      exact ⟨(List.take_append_drop n bytes).symm, hlen⟩
    · cases h
  · rintro ⟨rfl, rfl⟩
    simp

end PlatformLink
