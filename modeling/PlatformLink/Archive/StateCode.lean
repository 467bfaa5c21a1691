import PlatformLink.Archive.Decoding

/-! # Codes with states

A code in which the words depend on a state: each state stands for a symbol and says how many bits
lead to which next states. The number of states of a symbol is its share of a power of two.
-/

namespace PlatformLink
set_option autoImplicit false

open Decoding

/-- A state: its symbol, and the next state, up to a number given by some bits. -/
structure CodeState where
  symbol : Nat
  bits : Nat
  base : Nat

/-- A code: its states, a power `log` of two of them. -/
structure StateCode where
  log : Nat
  states : Array CodeState

namespace StateCode

def size (log : Nat) : Nat := Nat.pow 2 log

def constant (symbol : Nat) : StateCode := ⟨0, #[⟨symbol, 0, 0⟩]⟩

/-! ## Shares

The share of a symbol is one more than the number of its states; 0 stands for one state that is
kept apart. -/

/-- The number of states of a share. -/
def statesOf (share : Nat) : Nat := if share = 0 then 1 else share - 1

/-- A share of at most `left`, in as few bits as that allows. -/
def share (left : Nat) : Step Nat := do
  let half := Nat.pow 2 left.log2
  let short := 2 * half - 1 - left
  let low ← lowBits left.log2
  if low < short then return low
  else
    let n := low + half * (← lowBit)
    return if n < half then n else n - short

/-- How many more symbols have no states: digits up to one that is less than three. -/
def gap : Nat → Step Nat
  | 0 => malformed
  | fuel + 1 => do
    let n ← lowBits 2
    if n < 3 then return n
    else
      let rest ← gap fuel
      return 3 + rest

/-- The shares of up to `limit` symbols, after those already `done` in reverse; `left` is one more
than the number of states that are left over. -/
def sharesAfter (limit : Nat) : Nat → Nat → List Nat → Step (List Nat)
  | 0, _, _ => malformed
  | fuel + 1, left, done =>
    if left ≤ 1 then return done.reverse
    else do
      check (done.length < limit)
      let n ← share left
      if n = 1 then
        let skipped ← gap limit
        sharesAfter limit fuel left (List.replicate (skipped + 1) 1 ++ done)
      else sharesAfter limit fuel (left - statesOf n) (n :: done)

/-! ## Tables -/

/-- The places of `n` states in the order in which the symbols take them. -/
def places (n : Nat) : List Nat := (List.range n).map fun i => i * (n / 2 + n / 8 + 3) % n

/-- Whether the state of a symbol, given behind its share, is kept apart. -/
def isRare (e : Nat × Nat) : Bool := e.1 == 0

/-- The symbols of `n` states. Symbols whose state is kept apart have the last ones. -/
def symbols (n : Nat) (shares : List Nat) : Array Nat :=
  let indexed := shares.zipIdx
  let rare := (indexed.filter isRare).map Prod.snd
  let common := (indexed.filter (!isRare ·)).flatMap fun e => List.replicate (e.1 - 1) e.2
  let free := (places n).filter (· < n - rare.length)
  let apart := (List.range rare.length).map (n - 1 - ·)
  (free.zip common ++ apart.zip rare).foldl (fun table e => table.setIfInBounds e.1 e.2)
    (Array.replicate n 0)

/-- The states with some symbols, when `next` holds the number of the next state of each symbol,
after those already `done`. -/
def statesAfter (log : Nat) (next : Array Nat) (done : Array CodeState) :
    List Nat → Array CodeState
  | [] => done
  | s :: rest =>
    let n := next[s]?.getD 1
    let bits := log - n.log2
    statesAfter log (next.setIfInBounds s (n + 1))
      (done.push ⟨s, bits, n * Nat.pow 2 bits - size log⟩) rest

/-- The code in which the symbols have some shares. -/
def ofShares (log : Nat) (shares : List Nat) : StateCode :=
  ⟨log, statesAfter log (shares.map statesOf).toArray #[] (symbols (size log) shares).toList⟩

/-- Reads a code with up to `limit` symbols and at most a power `maxLog` of two of states. -/
def read (maxLog limit : Nat) : Step StateCode := do
  let log := 5 + (← lowBits 4)
  check (log ≤ maxLog)
  let shares ← sharesAfter limit (limit + 1) (size log + 1) []
  align
  return ofShares log shares

/-! ## Reading symbols -/

def start (c : StateCode) : Step Nat := backBits c.log

def state (c : StateCode) (n : Nat) : Step CodeState := ofOption c.states[n]?

def after (c : StateCode) (n : Nat) : Step Nat := do
  let s ← c.state n
  let more ← backBits s.bits
  return s.base + more

end StateCode

end PlatformLink
