import PlatformLink.Archive.Fields

/-! # Decoding steps

Coded data are read bit by bit or octet by octet, and the octets that they stand for are written
one after the other. A `Step` of a decoder reads, writes, or stops, because the input ends or
because it is malformed. What was written before it stops stays.
-/

namespace PlatformLink.Decoding
set_option autoImplicit false

/-- The input, the number of bits read so far, and the octets written so far. -/
structure State where
  input : Array UInt8
  position : Nat
  output : Array UInt8

/-- Why decoding stops before its end. -/
inductive Stop where
  /-- The input ends. -/
  | exhausted
  /-- The input stands for nothing. -/
  | malformed
  deriving DecidableEq, Repr

abbrev Step := ExceptT Stop (StateM State)

def malformed {α : Type} : Step α := throw .malformed

/-- Stops unless a condition holds. -/
def check (condition : Bool) : Step Unit := if condition then return () else malformed

def ofOption {α : Type} : Option α → Step α
  | some a => return a
  | none => malformed

/-! ## Reading -/

/-- The octet with the next bit, and the place of the bit in it. -/
def current (s : State) : Option (UInt8 × Nat) :=
  s.input[s.position / 8]?.map fun b => (b, s.position % 8)

/-- The next bit, counted from the lowest one of each octet. -/
def lowBit : Step Nat := fun s =>
  match current s with
  | some (b, i) => (.ok (b.toNat.testBit i).toNat, { s with position := s.position + 1 })
  | none => (.error .exhausted, s)

/-- The next bit, counted from the highest one of each octet. -/
def highBit : Step Nat := fun s =>
  match current s with
  | some (b, i) => (.ok (b.toNat.testBit (7 - i)).toNat, { s with position := s.position + 1 })
  | none => (.error .exhausted, s)

/-- The number of the next `n` bits, from the lowest one of each octet on, lowest first. -/
def lowBits : Nat → Step Nat
  | 0 => return 0
  | n + 1 => do
    let low ← lowBit
    let high ← lowBits n
    return low + 2 * high

/-- The number `start` continued by the next `n` bits, from the highest one of each octet on. -/
def highBitsAfter (start : Nat) : Nat → Step Nat
  | 0 => return start
  | n + 1 => do
    let b ← highBit
    highBitsAfter (2 * start + b) n

/-- The number of the next `n` bits, from the highest one of each octet on, highest first. -/
def highBits (n : Nat) : Step Nat := highBitsAfter 0 n

/-- Passes over the rest of an octet of which some bits were read. -/
def align : Step Unit := modify fun s => { s with position := (s.position + 7) / 8 * 8 }

def octet : Step UInt8 := fun s =>
  match s.input[s.position / 8]? with
  | some b => (.ok b, { s with position := s.position + 8 })
  | none => (.error .exhausted, s)

/-- The next `n` octets. -/
def octets (n : Nat) : Step Bytes := fun s =>
  let start := s.position / 8
  if start + n ≤ s.input.size then
    (.ok (s.input.extract start (start + n)).toList, { s with position := s.position + 8 * n })
  else (.error .exhausted, s)

/-- The number of the next `n` octets, low one first. -/
def number (n : Nat) : Step Nat := do
  let found ← octets n
  return Archive.ofLe found

/-- The next bit towards the front, when the input is read from its end and `position` is the number
of bits left. -/
def backBit : Step Nat := fun s =>
  match s.position with
  | 0 => (.error .exhausted, s)
  | n + 1 =>
    match s.input[n / 8]? with
    | some b => (.ok (b.toNat.testBit (n % 8)).toNat, { s with position := n })
    | none => (.error .exhausted, s)

/-- The number `start` continued by the next `n` bits towards the front. -/
def backBitsAfter (start : Nat) : Nat → Step Nat
  | 0 => return start
  | n + 1 => do
    let b ← backBit
    backBitsAfter (2 * start + b) n

/-- The number of the next `n` bits towards the front, highest first. -/
def backBits (n : Nat) : Step Nat := backBitsAfter 0 n

def offset : Step Nat := do
  let s ← get
  return s.position / 8

/-- Whether all octets are read. -/
def isAtEnd : Step Bool := do
  let s ← get
  return s.input.size ≤ s.position / 8

/-! ## Writing -/

def emit (b : UInt8) : Step Unit := fun s => (.ok (), { s with output := s.output.push b })

def emitAll (octets : Bytes) : Step Unit := fun s =>
  (.ok (), { s with output := s.output ++ octets })

def written : Step Nat := do
  let s ← get
  return s.output.size

/-- The octet `distance` before the end of the output; `before` stands for all octets in front of
it, if there are any. -/
def earlier (before : Option UInt8) (distance : Nat) (s : State) : Option UInt8 :=
  if distance ≤ s.output.size then s.output[s.output.size - distance]? else before

/-- Appends `n` octets, each the one `distance` before it. -/
def copy (before : Option UInt8) (distance : Nat) : Nat → Step Unit
  | 0 => return ()
  | n + 1 => fun s =>
    match earlier before distance s with
    | some b => copy before distance n { s with output := s.output.push b }
    | none => (.error .malformed, s)

/-! ## Running -/

/-- A value read from an input of its own, from a position in it on. -/
def within {α : Type} (input : Array UInt8) (position : Nat) (decoder : Step α) : Step α :=
  fun ⟨outerInput, outerPosition, output⟩ =>
    let (result, s) := decoder ⟨input, position, output⟩
    (result, { s with input := outerInput, position := outerPosition })

/-- A value read from octets backwards, from the highest bit that is set in the last of them on; the
bits have to be used up. -/
def backwards {α : Type} (octets : Bytes) (decoder : Step α) : Step α := do
  let last ← ofOption octets.getLast?
  check (last != 0)
  within octets.toArray (8 * (octets.length - 1) + last.toNat.log2) do
    let a ← decoder
    check ((← get).position == 0)
    return a

/-- How decoding some octets ends, and what is written by then. -/
def outcome (decoder : Step Unit) (octets : Bytes) : Except Stop Unit × Bytes :=
  let (result, s) := decoder.run.run ⟨octets.toArray, 0, #[]⟩
  (result, s.output.toList)

/-- What some octets stand for, if decoding comes to its end. -/
def whole? (decoder : Step Unit) (octets : Bytes) : Option Bytes :=
  match outcome decoder octets with
  | (.ok (), written) => some written
  | _ => none

/-- What some octets stand for, as far as they go. -/
def available? (decoder : Step Unit) (octets : Bytes) : Option Bytes :=
  match outcome decoder octets with
  | (.error .malformed, _) => none
  | (_, written) => some written

end PlatformLink.Decoding
