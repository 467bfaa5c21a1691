import PlatformLink.Archive.PrefixCode

/-! # Block sorting

A form of data in blocks. The octets of a block are shortened at runs of equal octets, sorted by
what follows them, named by how recently they occurred, and written in up to six prefix codes that
take turns. Reading goes back through these stages; each block and the whole have a checksum.
-/

namespace PlatformLink.Bzip2
set_option autoImplicit false

open Decoding

/-! ## Checksums -/

/-- The register after one more zero bit. -/
def shift (r : UInt32) : UInt32 :=
  if r &&& 0x80000000 = 0 then r <<< 1 else (r <<< 1) ^^^ 0x04c11db7

/-- The register after the eight bits of an octet. -/
def step (r : UInt32) (b : UInt8) : UInt32 :=
  let r := r ^^^ (b.toUInt32 <<< 24)
  shift (shift (shift (shift (shift (shift (shift (shift r)))))))

def checksum (octets : Bytes) : UInt32 := octets.foldl step 0xffffffff ^^^ 0xffffffff

def combined (total block : UInt32) : UInt32 := ((total <<< 1) ||| (total >>> 31)) ^^^ block

/-! ## Codes -/

/-- Which of 16 things are there. -/
def present : Nat → Step (List Bool)
  | 0 => return []
  | n + 1 => do
    let first ← highBit
    let rest ← present n
    return (first == 1) :: rest

/-- The octets of a block in order, from rows of 16 of which some are there. -/
def alphabet (row : Nat) : List Bool → Step Bytes
  | [] => return []
  | isThere :: rest => do
    let here ← if isThere then present 16 else pure []
    let later ← alphabet (row + 1) rest
    return (here.zipIdx.filter Prod.fst).map (fun e => UInt8.ofNat (16 * row + e.2)) ++ later

/-- A number below `n`, as so many ones in front of a zero. -/
def unary : Nat → Step Nat
  | 0 => malformed
  | n + 1 => do
    if (← highBit) = 0 then return 0
    else
      let rest ← unary n
      return rest + 1

/-- The element at a place of a list, and the list with it in front. -/
def toFront {α : Type} (place : Nat) (l : List α) : Option (α × List α) :=
  l[place]?.map fun a => (a, a :: l.eraseIdx place)

/-- The `n` numbers that are given by their places in a list, where each number moves to the front,
after those already `done` in reverse. -/
def turnsAfter (groups : Nat) : Nat → List Nat → List Nat → Step (List Nat)
  | 0, _, done => return done.reverse
  | n + 1, recent, done => do
    let (group, recent) ← ofOption (toFront (← unary groups) recent)
    turnsAfter groups n recent (group :: done)

/-- The greatest length of the code of a symbol. -/
def maxLength : Nat := 20

/-- A length from a near one, by steps of one up or down. -/
def lengthNear : Nat → Nat → Step Nat
  | 0, _ => malformed
  | fuel + 1, length => do
    check (1 ≤ length && length ≤ maxLength)
    if (← highBit) = 0 then return length
    else if (← highBit) = 0 then lengthNear fuel (length + 1)
    else lengthNear fuel (length - 1)

/-- The lengths of `n` symbols, each from the one before. -/
def lengthsAfter (fuel : Nat) (length : Nat) : Nat → Step (List Nat)
  | 0 => return []
  | n + 1 => do
    let length ← lengthNear fuel length
    let rest ← lengthsAfter fuel length n
    return length :: rest

/-- The `n` codes of a block for a number of symbols. -/
def codes (fuel symbols : Nat) : Nat → Step (List PrefixCode)
  | 0 => return []
  | n + 1 => do
    let start ← highBits 5
    let lengths ← lengthsAfter fuel start symbols
    let rest ← codes fuel symbols n
    return .ofLengths lengths :: rest

/-! ## Symbols -/

/-- The codes for the symbols to come, and how many symbols the first of them is still used for. -/
structure Queue where
  left : Nat
  codes : List PrefixCode

/-- The number of symbols that a code is used for in one turn. -/
def turnLength : Nat := 50

def Queue.next (q : Queue) : Step (Nat × Queue) := do
  match q.codes with
  | [] => malformed
  | c :: rest =>
    let s ← c.symbol highBit
    return (s, if q.left ≤ 1 then ⟨turnLength, rest⟩ else ⟨q.left - 1, q.codes⟩)

/-- The limit of the weight of a digit in the length of a run. -/
def weightLimit : Nat := 0x200000

/-- The sorted octets of a block after those of `column`, at most `limit` of them. The symbols 0 and
1 are the digits 1 and 2, low ones first, of the length of a run of the most recent octet: `run` is
the length so far and `weight` the weight of the next digit. -/
def columnAfter (limit : Nat) : Nat → Queue → Bytes → Nat → Nat → Array UInt8 → Step (Array UInt8)
  | 0, _, _, _, _, _ => malformed
  | fuel + 1, q, recent, run, weight, column => do
    let (s, q) ← q.next
    if s ≤ 1 then
      check (weight < weightLimit)
      columnAfter limit fuel q recent (run + (s + 1) * weight) (2 * weight) column
    else
      let b ← ofOption recent.head?
      check (column.size + run ≤ limit)
      let column := column ++ List.replicate run b
      if s = recent.length + 1 then return column
      else
        check (column.size < limit)
        let (b, recent) ← ofOption (toFront (s - 1) recent)
        columnAfter limit fuel q recent 0 1 (column.push b)

/-! ## Sorting -/

/-- The places of a column in the order of their octets; equal octets keep their order. -/
def sortedPlaces (column : Array UInt8) : Array Nat :=
  ((List.range column.size).mergeSort fun i j => column[i]?.getD 0 ≤ column[j]?.getD 0).toArray

/-- The octets at `n` places of a column, each place following from the one before, after those of
`done`. -/
def follow (column : Array UInt8) (next : Array Nat) : Nat → Nat → Array UInt8 → Array UInt8
  | 0, _, done => done
  | n + 1, place, done =>
    follow column next n (next[place]?.getD 0) (done.push (column[place]?.getD 0))

/-- The octets whose sorted form is a column, the first of them being that in the sorted row
`origin`. -/
def unsorted (column : Array UInt8) (origin : Nat) : Array UInt8 :=
  let next := sortedPlaces column
  follow column next column.size (next[origin]?.getD 0) #[]

/-! ## Runs -/

/-- Octets after those of `done`, when `count` equal ones `last` came just before: the octet behind
four equal ones says how many more there are. -/
def expandAfter (last : UInt8) (count : Nat) (done : Array UInt8) : Bytes → Option (Array UInt8)
  | [] => if count = 4 then none else some done
  | b :: rest =>
    if count = 4 then expandAfter last 0 (done ++ List.replicate b.toNat last) rest
    else if count = 0 || b != last then expandAfter b 1 (done.push b) rest
    else expandAfter last (count + 1) (done.push b) rest

def expand (octets : Bytes) : Option Bytes := (expandAfter 0 0 #[] octets).map Array.toList

/-! ## Blocks -/

def blockMark : Nat := 0x314159265359

def endMark : Nat := 0x177245385090

/-- The greatest number of turns that matters. -/
def maxTurns : Nat := 18002

/-- The octets of a block after its mark, at most `limit` of them before they are expanded, and its
checksum. -/
def block (limit fuel : Nat) : Step (Bytes × UInt32) := do
  let expected ← highBits 32
  check ((← highBit) == 0)
  let origin ← highBits 24
  let rows ← present 16
  let recent ← alphabet 0 rows
  check (!recent.isEmpty)
  let groups ← highBits 3
  check (2 ≤ groups && groups ≤ 6)
  let count ← highBits 15
  check (1 ≤ count)
  let order ← turnsAfter groups count (List.range groups) []
  let codes ← codes fuel (recent.length + 2) groups
  let queue := (order.take maxTurns).filterMap fun group => codes[group]?
  let column ← columnAfter limit fuel ⟨turnLength, queue⟩ recent 0 1 #[]
  check (origin < column.size)
  let octets ← ofOption (expand (unsorted column origin).toList)
  let found := checksum octets
  check (found.toNat == expected)
  return (octets, found)

/-- Blocks up to the end, after some with the checksum `total`. -/
def blocksAfter (limit fuel : Nat) : Nat → UInt32 → Step Unit
  | 0, _ => malformed
  | n + 1, total => do
    let mark ← highBits 48
    if mark = endMark then
      let expected ← highBits 32
      check (total.toNat == expected)
    else
      check (mark == blockMark)
      let (octets, found) ← block limit fuel
      emitAll octets
      blocksAfter limit fuel n (combined total found)

/-- A whole of at most `n` octets: the size of its blocks, and the blocks. -/
def decoder (n : Nat) : Step Unit := do
  check ((← octets 3) == [0x42, 0x5a, 0x68])
  let size := (← octet).toNat - 0x30
  check (1 ≤ size && size ≤ 9)
  blocksAfter (100000 * size) (8 * n + 1) n 0

/-- The octets that a block-sorted form stands for. What follows it does not matter. -/
def decode? (octets : Bytes) : Option Bytes := whole? (decoder octets.length) octets

end PlatformLink.Bzip2
