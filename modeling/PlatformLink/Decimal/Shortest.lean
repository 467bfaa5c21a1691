import PlatformLink.Decimal.Binary64

/-! # The fewest digits that read back

Every magnitude is the rounding of an interval of reals. `shortest` takes the coarsest grid of
multiples of a power of ten that has a point in that interval next to the magnitude, and of two
such points the nearer, or the even one of two as near. `Double.render` writes those digits:
positionally from 0.00001 up to below 10 ^ 16, otherwise with an exponent.
-/

namespace PlatformLink
set_option autoImplicit false

/-- A decimal, `digits * 10 ^ exponent`. -/
structure DecimalForm where
  digits : Nat
  exponent : Int
  deriving DecidableEq, Repr

namespace Magnitude

/-- Four times the ends of the interval that rounds to a magnitude, in units of its last binary
digit. Below a power of two the neighbours are closer. -/
def interval (m : Magnitude) : Nat × Nat :=
  let below := if m.significand = leading ∧ -1074 < m.exponent then 1 else 2
  (4 * m.significand - below, 4 * m.significand + 2)

/-- The ratio `num / (den * 10 ^ p)` as numerator and denominator. -/
def overTen (num den : Nat) (p : Int) : Nat × Nat :=
  if 0 ≤ p then (num, den * Nat.pow 10 p.toNat) else (num * Nat.pow 10 (-p).toNat, den)

/-- Whether `k * 10 ^ p` rounds to a magnitude: it lies between the ends of its interval, which
belong to it when the significand is even. -/
def roundsFrom (m : Magnitude) (k : Nat) (p : Int) : Bool :=
  let (low, high) := m.interval
  let (num, den) := scaled 1 4 (-m.exponent)
  -- the unit of the interval is `num / den`, so the point is `k * tenNum / tenDen` of them
  let (tenDen, tenNum) := overTen 1 1 p
  let point := k * tenNum * den
  let unit := tenDen * num
  if m.significand % 2 = 0 then low * unit ≤ point && point ≤ high * unit
  else low * unit < point && point < high * unit

/-- The point of the grid of multiples of `10 ^ p` that is next to a magnitude and rounds to it,
the nearer one if two do, and the even one if both are as near. -/
def onGrid? (m : Magnitude) (p : Int) : Option Nat :=
  let (num, den) := overTen m.ratio.1 m.ratio.2 p
  let k := num / den
  let lower := 0 < k && m.roundsFrom k p
  let upper := m.roundsFrom (k + 1) p
  if lower && upper then some (Magnitude.roundDiv num den)
  else if lower then some k
  else if upper then some (k + 1)
  else none

/-- The first grid with a hit, from `10 ^ p` downwards. -/
def shortestFrom (m : Magnitude) : Nat → Int → DecimalForm
  | 0, p => ⟨0, p⟩
  | fuel + 1, p =>
    match m.onGrid? p with
    | some k => ⟨k, p⟩
    | none => shortestFrom m fuel (p - 1)

/-- The shortest decimal that rounds to a positive magnitude. The grid of `10 ^ (-1074)` holds
every magnitude, so the search ends. -/
def shortest (m : Magnitude) : DecimalForm := shortestFrom m 1400 310

end Magnitude

/-- The text of a decimal with the digits `digits` and the point after the first `point` of
them. -/
def DecimalForm.render (d : DecimalForm) : String :=
  let digits := Nat.toDigits 10 d.digits
  let point : Int := digits.length + d.exponent
  let zeros (n : Int) : List Char := List.replicate n.toNat '0'
  if 0 < point ∧ point ≤ 16 then
    if 0 ≤ d.exponent then String.ofList (digits ++ zeros d.exponent) ++ ".0"
    else
      String.ofList (digits.take point.toNat) ++ "." ++ String.ofList (digits.drop point.toNat)
  else if -5 < point ∧ point ≤ 0 then "0." ++ String.ofList (zeros (-point) ++ digits)
  else
    let fraction := if digits.length = 1 then [] else '.' :: digits.drop 1
    let power := point - 1
    let sign := if power < 0 then "-" else "+"
    String.ofList (digits.take 1 ++ fraction) ++ "e" ++ sign ++ toString power.natAbs

def Double.render (d : Double) : String :=
  let sign := if d.negative then "-" else ""
  if d.magnitude.significand = 0 then sign ++ "0.0" else sign ++ d.magnitude.shortest.render

end PlatformLink
