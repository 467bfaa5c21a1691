import PlatformLink.Archive.PrefixCode
import PlatformLink.Archive.StateCode
import PlatformLink.Archive.Xxh64

/-! # Frames

A form of data in frames, each of blocks that are stored, that repeat one octet, or that are
compressed. A compressed block holds its literals, in a prefix code or not, and sequences: each
copies some literals and then repeats octets written before. The numbers of the sequences are in
codes with states, read backwards.
-/

namespace PlatformLink.Zstandard
set_option autoImplicit false

open Decoding

/-! ## Literals -/

/-- The greatest length of the code of a literal. -/
def maxLength : Nat := 12

/-- The prefix code of literals, for the complements of its bits and with the symbols in reverse:
in this form longer words come before shorter ones. -/
structure LiteralCode where
  code : PrefixCode
  /-- The number of symbols. -/
  count : Nat

def share (weight : Nat) : Nat := if weight = 0 then 0 else Nat.pow 2 (weight - 1)

/-- The code of symbols with some weights. A symbol that is left out at the end has the weight that
makes the code complete. -/
def LiteralCode.ofWeights? (weights : List Nat) : Option LiteralCode := do
  guard (weights.all (· ≤ maxLength))
  let total := weights.foldl (fun n w => n + share w) 0
  guard (0 < total)
  let log := total.log2 + 1
  guard (log ≤ maxLength)
  let last := (Nat.pow 2 log - total).log2 + 1
  guard (share last + total = Nat.pow 2 log)
  let all := weights ++ [last]
  guard (2 ≤ all.count 1)
  let lengths := all.map fun w => if w = 0 then 0 else log + 1 - w
  return ⟨.ofLengths lengths.reverse, lengths.length⟩

def LiteralCode.literal (c : LiteralCode) : Step UInt8 := do
  let n ← c.code.symbol do
    let b ← backBit
    return 1 - b
  return UInt8.ofNat (c.count - 1 - n)

/-- The weights after those already `done` in reverse, from two states of one code that take turns:
when the bits do not lead from the first to a next one, the second is the last. -/
def weightsAfter (c : StateCode) : Nat → Nat → Nat → List Nat → Step (List Nat)
  | 0, _, _, _ => malformed
  | fuel + 1, first, second, done => do
    let s ← c.state first
    let done := s.symbol :: done
    if (← get).position < s.bits then
      let t ← c.state second
      modify fun s => { s with position := 0 }
      return (t.symbol :: done).reverse
    else
      let next ← c.after first
      weightsAfter c fuel second next done

/-- The greatest number of weights. -/
def maxWeights : Nat := 255

/-- The weights in a code with states, from `n` octets. -/
def codedWeights (n : Nat) : Step (List Nat) := do
  let coded ← octets n
  within coded.toArray 0 do
    let c ← StateCode.read 6 256
    let rest ← octets (n - (← offset))
    backwards rest do
      let first ← c.start
      let second ← c.start
      weightsAfter c maxWeights first second []

/-- The weights of four bits each, from `n` octets. -/
def plainWeights (n : Nat) : Step (List Nat) := do
  let coded ← octets n
  return coded.flatMap fun b => [b.toNat / 16, b.toNat % 16]

def literalCode : Step LiteralCode := do
  let n := (← octet).toNat
  let weights ←
    if n < 128 then codedWeights n
    else do
      let weights ← plainWeights ((n - 126) / 2)
      pure (weights.take (n - 127))
  ofOption (LiteralCode.ofWeights? weights)

/-- The next `n` literals, after those already `done`. -/
def literalsAfter (c : LiteralCode) (done : Array UInt8) : Nat → Step (Array UInt8)
  | 0 => return done
  | n + 1 => do
    let b ← c.literal
    literalsAfter c (done.push b) n

/-- The `n` literals that some octets stand for, after those already `done`. -/
def stream (c : LiteralCode) (n : Nat) (octets : Bytes) (done : Array UInt8) : Step (Array UInt8) :=
  backwards octets (literalsAfter c done n)

/-- The `n` literals in four streams, which take `size` octets. All but the last stand for the same
number of literals, and the numbers of their octets come first. -/
def fourStreams (c : LiteralCode) (n size : Nat) : Step (Array UInt8) := do
  check (6 ≤ n && 6 ≤ size)
  let a ← number 2
  let b ← number 2
  let d ← number 2
  let quarter := (n + 3) / 4
  check (3 * quarter ≤ n && a + b + d + 6 ≤ size)
  let done ← stream c quarter (← octets a) #[]
  let done ← stream c quarter (← octets b) done
  let done ← stream c quarter (← octets d) done
  stream c (n - 3 * quarter) (← octets (size - 6 - a - b - d)) done

/-- The literals of a block, at most `limit` of them, and the code for them that later blocks can
use. -/
def literals (limit : Nat) (known : Option LiteralCode) :
    Step (Array UInt8 × Option LiteralCode) := do
  let kind ← lowBits 2
  let form ← lowBits 2
  if kind ≤ 1 then
    let n ← if form % 2 = 0 then do
        let high ← lowBits 4
        pure (form / 2 + 2 * high)
      else if form = 1 then lowBits 12
      else lowBits 20
    check (n ≤ limit)
    if kind = 0 then
      let octets ← octets n
      return (octets.toArray, known)
    else
      let b ← octet
      return (Array.replicate n b, known)
  else
    let width := if form ≤ 1 then 10 else if form = 2 then 14 else 18
    let n ← lowBits width
    let size ← lowBits width
    check (n ≤ limit)
    let coded ← octets size
    within coded.toArray 0 do
      let c ← if kind = 2 then literalCode else ofOption known
      let size := size - (← offset)
      let literals ←
        if form = 0 then do
          let rest ← octets size
          stream c n rest #[]
        else fourStreams c n size
      return (literals, some c)

/-! ## Sequences -/

/-- The numbers of literals that the symbols stand for, each with a number of further bits. -/
def countTable : Array (Nat × Nat) :=
  (Array.range 16).map (·, 0) ++
  #[(16, 1), (18, 1), (20, 1), (22, 1), (24, 2), (28, 2), (32, 3), (40, 3), (48, 4), (64, 6),
    (128, 7), (256, 8), (512, 9), (1024, 10), (2048, 11), (4096, 12), (8192, 13), (16384, 14),
    (32768, 15), (65536, 16)]

/-- The lengths of repeats that the symbols stand for, each with a number of further bits. -/
def lengthTable : Array (Nat × Nat) :=
  (Array.range 32).map (fun n => (n + 3, 0)) ++
  #[(35, 1), (37, 1), (39, 1), (41, 1), (43, 2), (47, 2), (51, 3), (59, 3), (67, 4), (83, 4),
    (99, 5), (131, 7), (259, 8), (515, 9), (1027, 10), (2051, 11), (4099, 12), (8195, 13),
    (16387, 14), (32771, 15), (65539, 16)]

/-- The shares of numbers of literals in the fixed code. -/
def countShares : List Nat :=
  [5, 4, 3, 3, 3, 3, 3, 3, 3, 3, 3, 3, 3, 2, 2, 2, 3, 3, 3, 3, 3, 3, 3, 3, 3, 4, 3, 2, 2, 2, 2, 2,
    0, 0, 0, 0]

/-- The shares of lengths in the fixed code. -/
def lengthShares : List Nat :=
  [2, 5, 4, 3, 3, 3, 3, 3, 3] ++ List.replicate 37 2 ++ List.replicate 7 0

/-- The shares of distances in the fixed code. -/
def distanceShares : List Nat :=
  [2, 2, 2, 2, 2, 2, 3, 3, 3] ++ List.replicate 15 2 ++ List.replicate 5 0

/-- What the codes for one kind of number may be like. -/
structure Kind where
  /-- The fixed code. -/
  fixed : StateCode
  /-- The greatest power of two of states. -/
  maxLog : Nat
  /-- The number of symbols. -/
  limit : Nat

def counts : Kind := ⟨.ofShares 6 countShares, 9, 36⟩

def lengths : Kind := ⟨.ofShares 6 lengthShares, 9, 53⟩

def distances : Kind := ⟨.ofShares 5 distanceShares, 8, 32⟩

/-- Reads a code: the fixed one, one with one symbol, one that is given, or the last one. -/
def Kind.code (k : Kind) (known : Option StateCode) : Nat → Step StateCode
  | 0 => return k.fixed
  | 1 => do
    let symbol := (← octet).toNat
    check (symbol < k.limit)
    return .constant symbol
  | 2 => StateCode.read k.maxLog k.limit
  | _ => ofOption known

/-- The codes of sequences. -/
structure Codes where
  counts : StateCode
  distances : StateCode
  lengths : StateCode

/-- The last three distances. -/
structure Recent where
  first : Nat
  second : Nat
  third : Nat

def Recent.initial : Recent := ⟨1, 4, 8⟩

def Recent.with (r : Recent) (distance : Nat) : Recent := ⟨distance, r.first, r.second⟩

/-- The distances after the one of number `n`; 3 is one less than the first. -/
def Recent.use (r : Recent) : Nat → Recent
  | 0 => r
  | 1 => ⟨r.second, r.first, r.third⟩
  | 2 => ⟨r.third, r.first, r.second⟩
  | _ => ⟨r.first - 1, r.first, r.second⟩

/-- The distances after a sequence that copies `count` literals and gives the number `n`: a known
distance for up to 3, counted from the second when there are no literals. -/
def Recent.after (r : Recent) (count n : Nat) : Recent :=
  if 3 < n then r.with (n - 3) else r.use (if count = 0 then n else n - 1)

/-- The states of the codes of sequences. -/
structure States where
  count : Nat
  distance : Nat
  length : Nat

def fromTable (table : Array (Nat × Nat)) (symbol : Nat) : Step Nat := do
  let (base, extra) ← ofOption table[symbol]?
  let n ← backBits extra
  return base + n

def States.next (s : States) (codes : Codes) : Step States := do
  let count ← codes.counts.after s.count
  let length ← codes.lengths.after s.length
  let distance ← codes.distances.after s.distance
  return ⟨count, distance, length⟩

/-- Copies literals to the output: those from `position` on up to `stop`. -/
def emitLiterals (literals : Array UInt8) (position stop : Nat) : Step Unit := do
  check (stop ≤ literals.size)
  emitAll (literals.extract position stop).toList

/-- Writes `n` sequences: `position` is that of the next literal, and references reach back to
`start` in the output. What comes out are the position and the distances after them. -/
def sequences (literals : Array UInt8) (codes : Codes) (start : Nat) :
    Nat → Nat → Recent → States → Step (Nat × Recent)
  | 0, position, recent, _ => return (position, recent)
  | n + 1, position, recent, s => do
    let distanceSymbol := (← codes.distances.state s.distance).symbol
    let more ← backBits distanceSymbol
    let length ← fromTable lengthTable (← codes.lengths.state s.length).symbol
    let count ← fromTable countTable (← codes.counts.state s.count).symbol
    let recent := recent.after count (Nat.pow 2 distanceSymbol + more)
    emitLiterals literals position (position + count)
    check (0 < recent.first && recent.first + start ≤ (← written))
    copy none recent.first length
    let s ← if n = 0 then pure s else s.next codes
    sequences literals codes start n (position + count) recent s

def sequenceCount : Step Nat := do
  let a := (← octet).toNat
  if a < 128 then return a
  else if a < 255 then
    let b := (← octet).toNat
    return 256 * (a - 128) + b
  else
    let n ← number 2
    return n + 0x7f00

/-! ## Blocks -/

/-- What a block can use of the blocks before it. -/
structure Memory where
  literals : Option LiteralCode
  codes : Option Codes
  recent : Recent

def Memory.empty : Memory := ⟨none, none, .initial⟩

def readCodes (known : Option Codes) : Step Codes := do
  let modes := (← octet).toNat
  check (modes % 4 == 0)
  let counts ← counts.code (known.map (·.counts)) (modes / 64)
  let distances ← distances.code (known.map (·.distances)) (modes / 16 % 4)
  let lengths ← lengths.code (known.map (·.lengths)) (modes / 4 % 4)
  return ⟨counts, distances, lengths⟩

/-- Writes a compressed block, which takes all of its input and has at most `limit` literals. -/
def compressed (limit start size : Nat) (m : Memory) : Step Memory := do
  let (literals, code) ← literals limit m.literals
  let n ← sequenceCount
  if n = 0 then
    check (← isAtEnd)
    emitLiterals literals 0 literals.size
    return { m with literals := code }
  else
    let codes ← readCodes m.codes
    let rest ← octets (size - (← offset))
    let (position, recent) ← backwards rest do
      let count ← codes.counts.start
      let distance ← codes.distances.start
      let length ← codes.lengths.start
      sequences literals codes start n 0 m.recent ⟨count, distance, length⟩
    emitLiterals literals position literals.size
    return ⟨code, some codes, recent⟩

/-- Writes a block, which is of a kind and takes a number of octets. -/
def block (limit start kind size : Nat) (m : Memory) : Step Memory := do
  match kind with
  | 0 =>
    check (size ≤ limit)
    emitAll (← octets size)
    return m
  | 1 =>
    check (size ≤ limit)
    emitAll (List.replicate size (← octet))
    return m
  | 2 =>
    check (2 ≤ size && size ≤ limit)
    let coded ← octets size
    let before ← written
    let m ← within coded.toArray 0 (compressed limit start size m)
    check ((← written) - before ≤ limit)
    return m
  | _ => malformed

def blocks (limit start : Nat) : Nat → Memory → Step Unit
  | 0, _ => malformed
  | fuel + 1, m => do
    let h ← number 3
    let m ← block limit start (h / 2 % 4) (h / 8) m
    if h % 2 = 1 then return () else blocks limit start fuel m

/-! ## Frames -/

/-- The greatest number of octets of a block. -/
def maxBlock : Nat := 0x20000

/-- The greatest reach of references. -/
def maxWindow : Nat := 0x8000001

/-- The reach of references, from how it is written. -/
def window (b : UInt8) : Nat :=
  let base := Nat.pow 2 (10 + b.toNat / 8)
  base + base / 8 * (b.toNat % 8)

/-- The number of octets of a frame, if it is given, in one of four forms. -/
def contentSize (form : Nat) (isSingle : Bool) : Step (Option Nat) := do
  match form with
  | 0 =>
    if isSingle then
      let n ← number 1
      return some n
    else return none
  | 1 =>
    let n ← number 2
    return some (n + 256)
  | 2 =>
    let n ← number 4
    return some n
  | _ =>
    let n ← number 8
    return some n

def frame (fuel : Nat) : Step Unit := do
  let h := (← octet).toNat
  check (!h.testBit 3)
  let isSingle := h.testBit 5
  let reach ← if isSingle then pure none else some <$> octet
  let dictionary ← number (#[0, 1, 2, 4][h % 4]?.getD 0)
  check (dictionary == 0)
  let size ← contentSize (h / 64) isSingle
  let reach := (reach.map window).getD (size.getD 0)
  check (reach ≤ maxWindow)
  let start ← written
  blocks (min reach maxBlock) start fuel .empty
  check (((size.map (· + start)).getD (← written)) == (← written))
  if h.testBit 2 then
    let expected ← number 4
    let content := ((← get).output.toList).drop start
    check ((Xxh64.checksum content).toNat % 0x100000000 == expected)

def frameMark : Nat := 0xfd2fb528

/-- The first of 16 marks of octets that are passed over. -/
def skipMark : Nat := 0x184d2a50

def frames (fuel : Nat) : Nat → Step Unit
  | 0 => malformed
  | n + 1 => do
    let mark ← number 4
    if mark = frameMark then frame fuel
    else
      check (mark / 16 == skipMark / 16)
      let _ ← octets (← number 4)
    if ← isAtEnd then return () else frames fuel n

def decode? (octets : Bytes) : Option Bytes :=
  whole? (frames (octets.length + 1) (octets.length + 1)) octets

end PlatformLink.Zstandard
