import PlatformLink.Archive.PrefixCode

/-! # Inflating

The deflated form of data: blocks that are stored, or coded with the fixed or their own prefix
codes, whose symbols are octets and references to octets written before. It has a narrow and a wide
variant, with references of other reach. Every step reads at least one bit, so the number of bits
bounds the number of steps.
-/

namespace PlatformLink.Inflate
set_option autoImplicit false

open Decoding

/-! ## Variants -/

/-- What the variants of the deflated form differ in. -/
structure Variant where
  /-- The lengths that the symbols from 257 on stand for, each with a number of further bits. -/
  lengths : Array (Nat × Nat)
  /-- The distances that the symbols stand for, each with a number of further bits. -/
  distances : Array (Nat × Nat)
  /-- Whether the own codes of a block have to be complete, with no more symbols than have a
  meaning. -/
  isStrict : Bool
  /-- What stands in front of the first octet, if references may reach there. -/
  before : Option UInt8

def commonLengths : Array (Nat × Nat) :=
  #[(3, 0), (4, 0), (5, 0), (6, 0), (7, 0), (8, 0), (9, 0), (10, 0), (11, 1), (13, 1), (15, 1),
    (17, 1), (19, 2), (23, 2), (27, 2), (31, 2), (35, 3), (43, 3), (51, 3), (59, 3), (67, 4),
    (83, 4), (99, 4), (115, 4), (131, 5), (163, 5), (195, 5), (227, 5)]

def commonDistances : Array (Nat × Nat) :=
  #[(1, 0), (2, 0), (3, 0), (4, 0), (5, 1), (7, 1), (9, 2), (13, 2), (17, 3), (25, 3), (33, 4),
    (49, 4), (65, 5), (97, 5), (129, 6), (193, 6), (257, 7), (385, 7), (513, 8), (769, 8),
    (1025, 9), (1537, 9), (2049, 10), (3073, 10), (4097, 11), (6145, 11), (8193, 12), (12289, 12),
    (16385, 13), (24577, 13)]

/-- References of up to 258 octets, at most 32768 back. -/
def narrow : Variant := ⟨commonLengths.push (258, 0), commonDistances, true, none⟩

/-- References of up to 65538 octets, at most 65536 back. In front of the first octet there are
zeros. -/
def wide : Variant :=
  ⟨commonLengths.push (3, 16), commonDistances ++ #[(32769, 14), (49153, 14)], false, some 0⟩

/-! ## Symbols -/

def fromTable (table : Array (Nat × Nat)) (symbol : Nat) : Step Nat := do
  let (base, extra) ← ofOption table[symbol]?
  let n ← lowBits extra
  return base + n

def endOfBlock : Nat := 256

def symbols (v : Variant) (literals distances : PrefixCode) : Nat → Step Unit
  | 0 => malformed
  | fuel + 1 => do
    let s ← literals.symbol lowBit
    if s < endOfBlock then
      emit (UInt8.ofNat s)
      symbols v literals distances fuel
    else if s = endOfBlock then return ()
    else
      let length ← fromTable v.lengths (s - (endOfBlock + 1))
      let distance ← fromTable v.distances (← distances.symbol lowBit)
      copy v.before distance length
      symbols v literals distances fuel

/-! ## Codes -/

/-- The greatest length of the code of a symbol. -/
def maxLength : Nat := 15

/-- The code in which either bit is the symbol 0. -/
def zeros : PrefixCode := ⟨[2], #[0, 0]⟩

/-- Whether the words of these lengths exist, and no further ones. -/
def isComplete (lengths : List Nat) : Bool :=
  PrefixCode.share maxLength lengths == PrefixCode.words maxLength

/-- Whether the words of these lengths exist. -/
def isPossible (lengths : List Nat) : Bool :=
  PrefixCode.share maxLength lengths ≤ PrefixCode.words maxLength

/-- Whether a block can bring along a code of these lengths. A strict one is complete, or has no
symbol but one of a single bit. -/
def isUsable (strict : Bool) (lengths : List Nat) : Bool :=
  if strict then isComplete lengths || (isPossible lengths && lengths.all (· ≤ 1))
  else isPossible lengths

def fixedLiterals : PrefixCode :=
  .ofLengths (List.replicate 144 8 ++ List.replicate 112 9 ++ List.replicate 24 7 ++
    List.replicate 8 8)

def fixedDistances : PrefixCode := .ofLengths (List.replicate 32 5)

/-- The order in which the lengths of the code for lengths are given. -/
def lengthOrder : List Nat := [16, 17, 18, 0, 8, 7, 9, 6, 10, 5, 11, 4, 12, 3, 13, 2, 14, 1, 15]

/-- How often a length is repeated, and which, after those already `done` in reverse. -/
def repeated (done : List Nat) (symbol : Nat) : Step (Nat × Nat) := do
  if symbol < 16 then return (1, symbol)
  else if symbol = 16 then
    let n ← lowBits 2
    match done with
    | [] => malformed
    | previous :: _ => return (3 + n, previous)
  else if symbol = 17 then
    let n ← lowBits 3
    return (3 + n, 0)
  else
    let n ← lowBits 7
    return (11 + n, 0)

/-- Code lengths up to `wanted` of them, after those already `done` in reverse. -/
def codeLengths (c : PrefixCode) (wanted : Nat) : Nat → List Nat → Step (List Nat)
  | 0, _ => malformed
  | fuel + 1, done =>
    if wanted ≤ done.length then return done.reverse
    else do
      let s ← c.symbol lowBit
      let (n, length) ← repeated done s
      check (done.length + n ≤ wanted)
      codeLengths c wanted fuel (List.replicate n length ++ done)

/-- The `n` code lengths of three bits each. -/
def shortLengths : Nat → Step (List Nat)
  | 0 => return []
  | n + 1 => do
    let first ← lowBits 3
    let rest ← shortLengths n
    return first :: rest

/-- The code for lengths with the given lengths. A strict one has to be complete; only when it has
no symbol at all does every bit stand for the length 0. -/
def lengthCode (strict : Bool) (lengths : List Nat) : Step PrefixCode :=
  if strict && lengths.all (· == 0) then return zeros
  else if if strict then isComplete lengths else isPossible lengths then return .ofLengths lengths
  else malformed

def ownCodes (strict : Bool) : Step (PrefixCode × PrefixCode) := do
  let literalCount := 257 + (← lowBits 5)
  let distanceCount := 1 + (← lowBits 5)
  let shortCount := 4 + (← lowBits 4)
  check (!strict || (literalCount ≤ 286 && distanceCount ≤ 30))
  let short ← shortLengths shortCount
  let placed := lengthOrder.zip short
  let c ← lengthCode strict ((List.range 19).map fun i => (placed.lookup i).getD 0)
  let total := literalCount + distanceCount
  let lengths ← codeLengths c total (total + 1) []
  let literals := lengths.take literalCount
  let distances := lengths.drop literalCount
  check (literals[endOfBlock]? != some 0)
  check (isUsable strict literals && isUsable strict distances)
  return (.ofLengths literals, .ofLengths distances)

/-! ## Blocks -/

def storedOctets : Nat → Step Unit
  | 0 => return ()
  | n + 1 => do
    let b ← octet
    emit b
    storedOctets n

/-- A stored block, from the next whole octet on: its length, the complement, its octets. -/
def stored : Step Unit := do
  align
  let length ← number 2
  let complement ← number 2
  check (length + complement == 0xffff)
  storedOctets length

def blocks (v : Variant) (steps : Nat) : Nat → Step Unit
  | 0 => malformed
  | fuel + 1 => do
    let last ← lowBit
    match ← lowBits 2 with
    | 0 => stored
    | 1 => symbols v fixedLiterals fixedDistances steps
    | 2 =>
      let (literals, distances) ← ownCodes v.isStrict
      symbols v literals distances steps
    | _ => malformed
    if last = 1 then return () else blocks v steps fuel

/-- All blocks of a deflated form of at most `n` octets. -/
def decoder (v : Variant) (n : Nat) : Step Unit := blocks v (8 * n + 1) (8 * n + 1)

/-- The octets that a narrow form stands for. What follows it does not matter. -/
def inflate? (octets : Bytes) : Option Bytes := whole? (decoder narrow octets.length) octets

/-- The octets that a wide form stands for, up to where it breaks off. What follows it does not
matter. -/
def inflateWide? (octets : Bytes) : Option Bytes := available? (decoder wide octets.length) octets

end PlatformLink.Inflate
