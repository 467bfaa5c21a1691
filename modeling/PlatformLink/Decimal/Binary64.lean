/-! # Finite double-precision magnitudes

A magnitude is `significand * 2 ^ exponent` with a significand below 2 ^ 53 and an exponent of at
least -1074. `ofRatio?` rounds a ratio of naturals to the nearest one, a tie to the even
significand, and has no answer above the largest. Products and quotients round once, and
`ofDecimal?` reads `significand * 10 ^ exponent` by such steps.
-/

namespace PlatformLink
set_option autoImplicit false

/-- The absolute value of a finite double. -/
structure Magnitude where
  significand : Nat
  exponent : Int
  deriving DecidableEq, Repr

/-- A finite double: a magnitude with a sign, so that zero has two. -/
structure Double where
  negative : Bool
  magnitude : Magnitude
  deriving DecidableEq, Repr

namespace Magnitude

def zero : Magnitude := ⟨0, -1074⟩

/-- The value of the leading digit of a full significand, 2 ^ 52. -/
def leading : Nat := 0x10000000000000

/-- The nearest natural to a ratio, a tie to the even one. -/
def roundDiv (num den : Nat) : Nat :=
  let q := num / den
  let twice := 2 * (num % den)
  if twice < den then q
  else if den < twice then q + 1
  else q + q % 2

/-- The ratio `num / (den * 2 ^ e)` as numerator and denominator. -/
def scaled (num den : Nat) (e : Int) : Nat × Nat :=
  if 0 ≤ e then (num, den * Nat.pow 2 e.toNat) else (num * Nat.pow 2 (-e).toNat, den)

/-- The exponent under which the significand of a positive ratio has 53 binary digits, or the
least exponent. -/
def exponentOf (num den : Nat) : Int :=
  let e : Int := (num.log2 : Int) - den.log2 - 53
  let (n, d) := scaled num den e
  let e := if n / d < 2 * leading then e else e + 1
  max e (-1074)

/-- The magnitude nearest to a ratio; none when that is infinite. -/
def ofRatio? (num den : Nat) : Option Magnitude :=
  if num = 0 then some zero
  else
    let e := exponentOf num den
    let (n, d) := scaled num den e
    let q := roundDiv n d
    let m : Magnitude := if q = 2 * leading then ⟨leading, e + 1⟩ else ⟨q, e⟩
    if m.exponent ≤ 971 then some m else none

def ratio (m : Magnitude) : Nat × Nat := scaled m.significand 1 (-m.exponent)

def mul? (a b : Magnitude) : Option Magnitude :=
  ofRatio? (a.ratio.1 * b.ratio.1) (a.ratio.2 * b.ratio.2)

def div? (a b : Magnitude) : Option Magnitude :=
  ofRatio? (a.ratio.1 * b.ratio.2) (a.ratio.2 * b.ratio.1)

def powerOfTen? (n : Nat) : Option Magnitude := ofRatio? (Nat.pow 10 n) 1

/-- A magnitude times a power of ten, in steps of at most 308 powers; each step rounds. -/
def scale? (m : Magnitude) (exponent : Int) : Option Magnitude :=
  if 308 < exponent then
    if m.significand = 0 then some m else none
  else if 0 ≤ exponent then do
    m.mul? (← powerOfTen? exponent.toNat)
  else if -308 ≤ exponent then do
    m.div? (← powerOfTen? (-exponent).toNat)
  else if m.significand = 0 then some m
  else do
    let smaller ← m.div? (← powerOfTen? 308)
    smaller.scale? (exponent + 308)
termination_by (-exponent).toNat

/-- The magnitude read from a decimal: its digits are rounded first, then scaled. -/
def ofDecimal? (significand : Nat) (exponent : Int) : Option Magnitude := do
  let m ← ofRatio? significand 1
  m.scale? exponent

end Magnitude

end PlatformLink
