import PlatformLink.Archive.Decoding

/-! # Prefix codes

A code gives each symbol a word of bits, of which none starts another one. It is canonical when the
lengths of the words determine it: words of one length follow each other in the order of their
symbols, and longer words follow shorter ones.
-/

namespace PlatformLink
set_option autoImplicit false

open Decoding

/-- A canonical code: the number of symbols of each length from 1 on, and the symbols by length. -/
structure PrefixCode where
  counts : List Nat
  symbols : Array Nat

namespace PrefixCode

/-- The code in which symbol `i` has the length `lengths[i]`, 0 for none. -/
def ofLengths (lengths : List Nat) : PrefixCode :=
  let longest := lengths.foldl max 1
  let indexed := lengths.zipIdx
  ⟨(List.range longest).map fun n => lengths.count (n + 1),
    ((List.range longest).map fun n =>
      (indexed.filter fun e => e.1 == n + 1).map Prod.snd).flatten.toArray⟩

/-- The number of words of `n` bits. -/
def words (n : Nat) : Nat := Nat.pow 2 n

/-- How many of all the words of the length `longest` start with the code of a symbol, when no
length is greater. -/
def share (longest : Nat) (lengths : List Nat) : Nat :=
  lengths.foldl (fun total n => if n = 0 then total else total + words (longest - n)) 0

/-- Reads a symbol when no shorter word fits: `word` is the number of the bits so far, `first` the
first word of the next length and `index` the place of its symbol. -/
def symbolAfter (bit : Step Nat) (symbols : Array Nat) (word first index : Nat) :
    List Nat → Step Nat
  | [] => malformed
  | count :: counts => do
    let word := word + (← bit)
    if word < first + count then ofOption symbols[index + (word - first)]?
    else symbolAfter bit symbols (2 * word) (2 * (first + count)) (index + count) counts

def symbol (bit : Step Nat) (c : PrefixCode) : Step Nat := symbolAfter bit c.symbols 0 0 0 c.counts

end PrefixCode

end PlatformLink
