import PlatformLink.Bytes
import PlatformLink.ClassError

/-! # Reading octets from the front

A `Reader` consumes octets from the front of what is left and knows how many went before, so that
a truncation can name its offset. Readers are the step parsers of the class-file format: a run of
octets (`take`), numbers (`u8`, `u16`, `u32`), a number read octet by octet (`stepwise16` and its
wider forms), and a reader repeated a given number of times (`many`).
-/

namespace PlatformLink
set_option autoImplicit false

/-- What is left to read, and how many octets went before it. -/
structure Cursor where
  offset : Nat
  rest : Bytes
  deriving DecidableEq, Repr

def Cursor.start (bytes : Bytes) : Cursor := ⟨0, bytes⟩

/-- A step that consumes octets and returns a value, or fails. -/
abbrev Reader := StateT Cursor (Except ClassError)

namespace Reader

/-- The next `n` octets; when fewer are left the truncation is at the first of them. -/
def take (n : Nat) : Reader Bytes := fun c =>
  match splitExact? n c.rest with
  | some (front, back) => .ok (front, ⟨c.offset + n, back⟩)
  | none => .error (.truncated c.offset)

def u8 : Reader UInt8 := fun c =>
  match c.rest with
  | a :: rest => .ok (a, ⟨c.offset + 1, rest⟩)
  | [] => .error (.truncated c.offset)

/-- The next 16-bit number, read whole. -/
def u16 : Reader UInt16 := fun c =>
  match c.rest with
  | a :: b :: rest => .ok (ofBe16 a b, ⟨c.offset + 2, rest⟩)
  | _ => .error (.truncated c.offset)

/-- The next 32-bit number, read whole. -/
def u32 : Reader UInt32 := fun c =>
  match c.rest with
  | a :: b :: d :: e :: rest => .ok (ofBe32 a b d e, ⟨c.offset + 4, rest⟩)
  | _ => .error (.truncated c.offset)

/-- The next 16-bit number, read octet by octet: a truncation is at the first octet missing. -/
def stepwise16 : Reader UInt16 := do
  let a ← u8
  let b ← u8
  return ofBe16 a b

/-- The next 32-bit number, read octet by octet. -/
def stepwise32 : Reader UInt32 := do
  let high ← stepwise16
  let low ← stepwise16
  return ofHalves32 high low

/-- The next 64-bit number, read octet by octet. -/
def stepwise64 : Reader UInt64 := do
  let high ← stepwise32
  let low ← stepwise32
  return ofHalves64 high low

def truncatedHere {α : Type} : Reader α := fun c => .error (.truncated c.offset)

/-- Succeeds at the end only; anything left is reported as a truncation at its offset. -/
def atEnd : Reader Unit := fun c =>
  match c.rest with
  | [] => .ok ((), c)
  | _ :: _ => .error (.truncated c.offset)

def consumed (item : Reader Unit) : Reader Bytes := fun c =>
  match item c with
  | .ok (_, c') => .ok (c.rest.take (c'.offset - c.offset), c')
  | .error e => .error e

/-- The values of `item` read `n` times, after those already `done` in reverse. -/
def manyAfter {α : Type} (item : Reader α) : Nat → List α → Reader (List α)
  | 0, done => fun c => .ok (done.reverse, c)
  | n + 1, done => fun c =>
    match item c with
    | .ok (a, c') => manyAfter item n (a :: done) c'
    | .error e => .error e

/-- The values of `item` read `n` times. -/
def many {α : Type} (n : Nat) (item : Reader α) : Reader (List α) := manyAfter item n []

/-- A 16-bit count and that many items. -/
def counted16 {α : Type} (item : Reader α) : Reader (List α) := do
  let n ← u16
  many n.toNat item

/-- `item` performed `n` times, its results dropped. -/
def skipMany (item : Reader Unit) : Nat → Reader Unit
  | 0 => fun c => .ok ((), c)
  | n + 1 => fun c =>
    match item c with
    | .ok (_, c') => skipMany item n c'
    | .error e => .error e

/-- The value that a reader finds at the front of some octets. -/
def parse {α : Type} (item : Reader α) (bytes : Bytes) : Except ClassError α :=
  (item (Cursor.start bytes)).map Prod.fst

/-! ## Repetition -/

theorem manyAfter_eq {α : Type} (item : Reader α) (n : Nat) (done : List α) (c : Cursor) :
    manyAfter item n done c =
      (many n item c).map fun r => (done.reverse ++ r.1, r.2) := by
  induction n generalizing done c with
  | zero => simp [many, manyAfter, Except.map]
  | succ n ih =>
    simp only [many, manyAfter]
    cases h : item c with
    | error e => rfl
    | ok r =>
      obtain ⟨a, c'⟩ := r
      simp only
      rw [ih (a :: done), ih [a]]
      cases many n item c' <;> simp [Except.map]

theorem many_succ {α : Type} (item : Reader α) (n : Nat) (c : Cursor) :
    many (n + 1) item c =
      match item c with
      | .ok (a, c') => (many n item c').map fun r => (a :: r.1, r.2)
      | .error e => .error e := by
  simp only [many, manyAfter]
  cases item c with
  | error e => rfl
  | ok r =>
    obtain ⟨a, c'⟩ := r
    simp only
    rw [manyAfter_eq]
    simp [many]

end Reader

end PlatformLink
