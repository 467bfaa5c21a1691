import PlatformLink.Json
import PlatformLink.Text.Utf16

/-! # Reading JSON

`Json.parse?` reads one value and the blanks around it. Values nest at most 127 deep, strings
hold no control characters and no surrogate without its partner, and a number beyond the finite
doubles is refused.
-/

namespace PlatformLink.Json
set_option autoImplicit false

def skipBlanks (cs : List Char) : List Char :=
  cs.dropWhile fun c => c == ' ' || c == '\n' || c == '\t' || c == '\r'

/-! ## Numbers -/

def maxNatural : Nat := 18446744073709551615

/-- The digits at the front, and what follows. -/
def digits (cs : List Char) : List Nat × List Char :=
  ((cs.takeWhile Char.isDigit).map fun c => c.toNat - 48, cs.dropWhile Char.isDigit)

/-- Digits appended to a significand while it stays within `maxNatural`: the significand, and the
digits from the first that no longer fits. -/
def appendDigits (significand : Nat) : List Nat → Nat × List Nat
  | [] => (significand, [])
  | d :: rest =>
    if significand * 10 + d ≤ maxNatural then appendDigits (significand * 10 + d) rest
    else (significand, d :: rest)

/-- The exponent part, if there is one, and what follows. A mark without digits is refused. -/
def exponentPart (cs : List Char) : Option (Option Int × List Char) :=
  match cs with
  | c :: rest =>
    if c = 'e' ∨ c = 'E' then
      let (negative, rest) :=
        match rest with
        | '+' :: rest => (false, rest)
        | '-' :: rest => (true, rest)
        | rest => (false, rest)
      match digits rest with
      | ([], _) => none
      | (ds, rest) =>
        let n : Nat := ds.foldl (fun n d => n * 10 + d) 0
        some (some (if negative then -(n : Int) else n), rest)
    else some (none, cs)
  | [] => some (none, [])

/-- The digits after a point, if there is one, and what follows. A point without digits is
refused. -/
def fractionPart (cs : List Char) : Option (Option (List Nat) × List Char) :=
  match cs with
  | '.' :: rest =>
    match digits rest with
    | ([], _) => none
    | (ds, rest) => some (some ds, rest)
  | cs => some (none, cs)

/-- The digits before the point, without superfluous zeros in front, and what follows. -/
def integerPart (cs : List Char) : Option (List Nat × List Char) :=
  match digits cs with
  | ([], _) => none
  | (0 :: _ :: _, _) => none
  | (ds, rest) => some (ds, rest)

/-- The number of a sign, digits before and after the point, and an exponent. Digits that no
longer fit the significand only scale it, or count for nothing after the point. -/
def numberOf (negative : Bool) (whole : List Nat) (fraction : Option (List Nat))
    (exponent : Option Int) : Option JsonNumber :=
  let (significand, left) := appendDigits 0 whole
  match left, fraction, exponent with
  | [], none, none =>
    if !negative then some (.natural significand)
    else if 0 < significand ∧ significand ≤ 0x8000000000000000 then some (.negative significand)
    else (Magnitude.ofDecimal? significand 0).map fun m => .double ⟨true, m⟩
  | left, fraction, exponent =>
    let fraction := fraction.getD []
    let (significand, unused) := appendDigits significand fraction
    let scale : Int := left.length - (fraction.length - unused.length : Nat) + exponent.getD 0
    (Magnitude.ofDecimal? significand scale).map fun m => .double ⟨negative, m⟩

def number? (cs : List Char) : Option (JsonNumber × List Char) := do
  let (negative, cs) :=
    match cs with
    | '-' :: rest => (true, rest)
    | cs => (false, cs)
  let (whole, cs) ← integerPart cs
  let (fraction, cs) ← fractionPart cs
  let (exponent, cs) ← exponentPart cs
  let n ← numberOf negative whole fraction exponent
  return (n, cs)

/-! ## Strings -/

def hexValue? (c : Char) : Option Nat :=
  let n := c.toNat
  if 48 ≤ n ∧ n ≤ 57 then some (n - 48)
  else if 65 ≤ n ∧ n ≤ 70 then some (n - 55)
  else if 97 ≤ n ∧ n ≤ 102 then some (n - 87)
  else none

/-- The UTF-16 unit of four hexadecimal digits. -/
def unit? (a b c d : Char) : Option UInt16 := do
  let a ← hexValue? a
  let b ← hexValue? b
  let c ← hexValue? c
  let d ← hexValue? d
  return UInt16.ofNat (a * 4096 + b * 256 + c * 16 + d)

def escaped? : Char → Option Char
  | '"' => some '"'
  | '\\' => some '\\'
  | '/' => some '/'
  | 'b' => some '\x08'
  | 'f' => some '\x0c'
  | 'n' => some '\n'
  | 'r' => some '\r'
  | 't' => some '\t'
  | _ => none

/-- The character of the escapes `\u` that follow a first one of unit `u`: its own, or that of a
pair. -/
def unitChar? (u : UInt16) (cs : List Char) : Option (Char × List Char) :=
  if Utf16.isHigh u then
    match cs with
    | '\\' :: 'u' :: a :: b :: c :: d :: rest => do
      let v ← unit? a b c d
      if Utf16.isLow v then some (Utf16.ofPair u v, rest) else none
    | _ => none
  else if Utf16.isLow u then none
  else some (Char.ofNat u.toNat, cs)

def escape? : List Char → Option (Char × List Char)
  | 'u' :: a :: b :: c :: d :: rest => do
    let u ← unit? a b c d
    unitChar? u rest
  | c :: rest => (escaped? c).map fun e => (e, rest)
  | [] => none

/-- The rest of a string whose opening quote is gone, after the characters already `done` in
reverse. Each step takes a character of the input, so its length is fuel enough. -/
def stringRest (done : List Char) : Nat → List Char → Option (String × List Char)
  | 0, _ => none
  | _ + 1, [] => none
  | fuel + 1, c :: rest =>
    if c = '"' then some (String.ofList done.reverse, rest)
    else if c = '\\' then
      match escape? rest with
      | some (e, rest) => stringRest (e :: done) fuel rest
      | none => none
    else if c.toNat < 0x20 then none
    else stringRest (c :: done) fuel rest

def string? (cs : List Char) : Option (String × List Char) := stringRest [] (cs.length + 1) cs

/-! ## Values -/

mutual

/-- Takes a value from the front, with at most `depth - 1` levels of nesting. -/
def value? : Nat → Nat → List Char → Option (Json × List Char)
  | 0, _, _ => none
  | fuel + 1, depth, cs =>
    match skipBlanks cs with
    | 'n' :: 'u' :: 'l' :: 'l' :: rest => some (.null, rest)
    | 't' :: 'r' :: 'u' :: 'e' :: rest => some (.bool true, rest)
    | 'f' :: 'a' :: 'l' :: 's' :: 'e' :: rest => some (.bool false, rest)
    | '"' :: rest => (string? rest).map fun r => (.string r.1, r.2)
    | '[' :: rest =>
      if depth ≤ 1 then none
      else
        match skipBlanks rest with
        | ']' :: rest => some (.array [], rest)
        | rest => items? fuel (depth - 1) [] rest
    | '\x7b' :: rest =>
      if depth ≤ 1 then none
      else
        match skipBlanks rest with
        | '\x7d' :: rest => some (.object [], rest)
        | rest => members? fuel (depth - 1) [] rest
    | cs => (number? cs).map fun r => (.number r.1, r.2)

/-- The items of an array from the next one on, after those already `done` in reverse. -/
def items? : Nat → Nat → List Json → List Char → Option (Json × List Char)
  | 0, _, _, _ => none
  | fuel + 1, depth, done, cs =>
    match value? fuel depth cs with
    | some (item, rest) =>
      match skipBlanks rest with
      | ',' :: rest => items? fuel depth (item :: done) rest
      | ']' :: rest => some (.array (item :: done).reverse, rest)
      | _ => none
    | none => none

/-- The members of an object from the next one on, after those already `done` in reverse. -/
def members? : Nat → Nat → List (String × Json) → List Char → Option (Json × List Char)
  | 0, _, _, _ => none
  | fuel + 1, depth, done, cs =>
    match skipBlanks cs with
    | '"' :: rest =>
      match string? rest with
      | some (name, rest) =>
        match skipBlanks rest with
        | ':' :: rest =>
          match value? fuel depth rest with
          | some (item, rest) =>
            match skipBlanks rest with
            | ',' :: rest => members? fuel depth ((name, item) :: done) rest
            | '\x7d' :: rest => some (.object ((name, item) :: done).reverse, rest)
            | _ => none
          | none => none
        | _ => none
      | none => none
    | _ => none

end

/-- The value that a text is. Every character allows two steps. -/
def parse? (text : String) : Option Json :=
  let cs := text.toList
  match value? (2 * cs.length + 2) 128 cs with
  | some (json, rest) => if (skipBlanks rest).isEmpty then some json else none
  | none => none

end PlatformLink.Json
