import PlatformLink.Archive.Decoding

/-! # Range codes

A form of data as octets and references to octets written before, in which every bit is coded with
a chance that follows what was seen in the same context. Its bits share a range of numbers: a bit
takes a part of the range as large as its chance. The form is met alone, and in chunks each of which
may start afresh.
-/

namespace PlatformLink.Lzma
set_option autoImplicit false

open Decoding

/-! ## Bits -/

/-- How contexts and sizes are chosen. -/
structure Settings where
  /-- The number of bits of the octet before a literal that choose its context. -/
  literalBits : Nat
  /-- The number of bits of the position that choose the context of a literal. -/
  placeBits : Nat
  /-- The number of bits of the position that choose the context of all else. -/
  positionBits : Nat
  deriving DecidableEq, Repr

/-- The last four distances, each one less than what it stands for. -/
structure Recent where
  first : Nat
  second : Nat
  third : Nat
  fourth : Nat

/-- What decoding has come to: the range and the place of the input in it, the chance of a zero in
each context, in parts of 2048, and what the last symbols were. -/
structure Coder where
  range : Nat
  code : Nat
  chances : Array Nat
  phase : Nat
  recent : Recent

abbrev Coded := StateT Coder Step

/-- An octet of the code. Behind the end of the input, `filler` may stand for any number of
octets. -/
def codeOctet (filler : Option UInt8) : Step UInt8 := do
  match filler with
  | none => octet
  | some b => if ← isAtEnd then return b else octet

def widen (filler : Option UInt8) : Coded Unit := do
  if (← get).range < 0x1000000 then
    let b ← codeOctet filler
    modify fun c => { c with range := 256 * c.range, code := (256 * c.code + b.toNat) % 0x100000000 }

def Coder.bound (c : Coder) (context : Nat) : Nat :=
  c.range / 2048 * c.chances[context]?.getD 0

def Coder.afterZero (c : Coder) (context : Nat) : Coder :=
  let { range, code, chances, phase, recent } := c
  let chance := chances[context]?.getD 0
  ⟨range / 2048 * chance, code, chances.setIfInBounds context (chance + (2048 - chance) / 32), phase,
    recent⟩

def Coder.afterOne (c : Coder) (context : Nat) : Coder :=
  let { range, code, chances, phase, recent } := c
  let chance := chances[context]?.getD 0
  let bound := range / 2048 * chance
  ⟨range - bound, code - bound, chances.setIfInBounds context (chance - chance / 32), phase, recent⟩

def bit (filler : Option UInt8) (context : Nat) : Coded Nat := do
  widen filler
  modifyGet fun c =>
    if c.code < c.bound context then (0, c.afterZero context) else (1, c.afterOne context)

def evenBit (filler : Option UInt8) : Coded Nat := do
  widen filler
  modifyGet fun c =>
    let half := c.range / 2
    if c.code < half then (0, { c with range := half })
    else (1, { c with range := half, code := c.code - half })

/-- The number `start` continued by `n` bits that take half of the range, highest first. -/
def evenBits (filler : Option UInt8) : Nat → Nat → Coded Nat
  | 0, start => return start
  | n + 1, start => do
    let b ← evenBit filler
    evenBits filler n (2 * start + b)

/-- The number `start` continued by `n` bits, highest first, each in the context of the number so
far. -/
def tree (filler : Option UInt8) (base : Nat) : Nat → Nat → Coded Nat
  | 0, start => return start
  | n + 1, start => do
    let b ← bit filler (base + start)
    tree filler base n (2 * start + b)

/-- The number of `n` bits, lowest first, each in the context of the bits so far. -/
def lowTree (filler : Option UInt8) (base : Nat) : Nat → Nat → Coded Nat
  | 0, _ => return 0
  | n + 1, start => do
    let b ← bit filler (base + start)
    let rest ← lowTree filler base n (2 * start + b)
    return b + 2 * rest

/-! ## Contexts

The chances of all contexts stand in one array, those for one purpose from a place on. -/

/-- Whether a symbol is a reference, at a place. -/
def referenceContext (phase place : Nat) : Nat := 16 * phase + place

/-- Whether a reference is by a recent distance. -/
def repeatContext (phase : Nat) : Nat := 192 + phase

/-- Whether a recent distance is not the first. -/
def otherContext (phase : Nat) : Nat := 204 + phase

/-- Whether a recent distance is behind the second. -/
def thirdContext (phase : Nat) : Nat := 216 + phase

/-- Whether a recent distance is behind the third. -/
def fourthContext (phase : Nat) : Nat := 228 + phase

/-- Whether a reference by the first recent distance is longer than one octet, at a place. -/
def longContext (phase place : Nat) : Nat := 240 + 16 * phase + place

/-- The size of a distance, for a length less two. -/
def slotContext (length : Nat) : Nat := 432 + 64 * min length 3

def distanceContext : Nat := 688

def alignContext : Nat := 803

def lengthContext : Nat := 819

def repeatLengthContext : Nat := 1333

def literalContext (context : Nat) : Nat := 1847 + 768 * context

def contexts (s : Settings) : Nat := literalContext (Nat.pow 2 (s.literalBits + s.placeBits))

def Coder.fresh (s : Settings) : Coder :=
  ⟨0, 0, Array.replicate (contexts s) 1024, 0, ⟨0, 0, 0, 0⟩⟩

/-! ## Symbols -/

/-- The last `n` bits of an octet, whose bits so far and a one in front of them are the number
`start`. While they agree with those of the octet `matched`, its next bit chooses the context. -/
def octetAfter (filler : Option UInt8) (base : Nat) : Nat → Option Nat → Nat → Coded Nat
  | 0, _, start => return start
  | n + 1, none, start => do
    let b ← bit filler (base + start)
    octetAfter filler base n none (2 * start + b)
  | n + 1, some matched, start => do
    let expected := matched / Nat.pow 2 n % 2
    let b ← bit filler (base + 256 * (1 + expected) + start)
    octetAfter filler base n (if b = expected then some matched else none) (2 * start + b)

def literal (filler : Option UInt8) (s : Settings) (position : Nat) : Coded Unit := do
  let c ← get
  let phase := c.phase
  let distance := c.recent.first + 1
  let out ← (get : Step State)
  let previous := if position = 0 then 0 else ((earlier none 1 out).getD 0).toNat
  let matched := if phase < 7 then none else some ((earlier none distance out).getD 0).toNat
  let context := position % Nat.pow 2 s.placeBits * Nat.pow 2 s.literalBits +
    previous / Nat.pow 2 (8 - s.literalBits)
  let b ← octetAfter filler (literalContext context) 8 matched 1
  emit (UInt8.ofNat b)
  modify fun c =>
    { c with phase := if phase < 4 then 0 else if phase < 10 then phase - 3 else phase - 6 }

def lengthCode (filler : Option UInt8) (base place : Nat) : Coded Nat := do
  if (← bit filler base) = 0 then
    let n ← tree filler (base + 2 + 8 * place) 3 1
    return n - 8
  else if (← bit filler (base + 1)) = 0 then
    let n ← tree filler (base + 130 + 8 * place) 3 1
    return n
  else
    let n ← tree filler (base + 258) 8 1
    return n - 240

/-- Decodes a distance less one, for a length less two. -/
def distanceCode (filler : Option UInt8) (length : Nat) : Coded Nat := do
  let slot := (← tree filler (slotContext length) 6 1) - 64
  if slot < 4 then return slot
  else
    let n := slot / 2 - 1
    let base := (2 + slot % 2) * Nat.pow 2 n
    if slot < 14 then
      let rest ← lowTree filler (distanceContext + base - slot) n 1
      return base + rest
    else
      let high ← evenBits filler (n - 4) 0
      let low ← lowTree filler alignContext 4 1
      return base + 16 * high + low

/-- Decodes a new reference: its length. The distance becomes the first of the recent ones. -/
def newReference (filler : Option UInt8) (place : Nat) : Coded Nat := do
  let length ← lengthCode filler lengthContext place
  let distance ← distanceCode filler length
  modify fun c => { c with
    phase := if c.phase < 7 then 7 else 10
    recent := ⟨distance, c.recent.first, c.recent.second, c.recent.third⟩ }
  return length + 2

/-- Decodes which of the second to fourth of the recent distances comes to the front. -/
def bringToFront (filler : Option UInt8) (phase : Nat) : Coded Unit := do
  if (← bit filler (thirdContext phase)) = 0 then
    modify fun c =>
      let r := c.recent
      { c with recent := ⟨r.second, r.first, r.third, r.fourth⟩ }
  else if (← bit filler (fourthContext phase)) = 0 then
    modify fun c =>
      let r := c.recent
      { c with recent := ⟨r.third, r.first, r.second, r.fourth⟩ }
  else
    modify fun c =>
      let r := c.recent
      { c with recent := ⟨r.fourth, r.first, r.second, r.third⟩ }

/-- Decodes a reference by a recent distance: its length. -/
def knownReference (filler : Option UInt8) (place : Nat) : Coded Nat := do
  let phase := (← get).phase
  let isOther ← bit filler (otherContext phase)
  let isLong ←
    if isOther = 1 then do
      bringToFront filler phase
      pure 1
    else bit filler (longContext phase place)
  if isLong = 0 then
    modify fun c => { c with phase := if phase < 7 then 9 else 11 }
    return 1
  else
    let length ← lengthCode filler repeatLengthContext place
    modify fun c => { c with phase := if phase < 7 then 8 else 11 }
    return length + 2

/-- A piece of data that is decoded in one go. -/
structure Piece where
  settings : Settings
  filler : Option UInt8
  /-- The greatest distance of references. -/
  reach : Nat
  /-- Where the first octet is in the output. -/
  start : Nat
  /-- Where the output is to end. -/
  stop : Nat

/-- Decodes a symbol, which has to end where the output ends. -/
def symbol (p : Piece) : Coded Unit := do
  let position := (← (written : Step Nat)) - p.start
  let place := position % Nat.pow 2 p.settings.positionBits
  let phase := (← get).phase
  if (← bit p.filler (referenceContext phase place)) = 0 then
    literal p.filler p.settings position
  else
    let isKnown ← bit p.filler (repeatContext phase)
    let length ←
      if isKnown = 0 then newReference p.filler place else knownReference p.filler place
    let distance := (← get).recent.first + 1
    check (distance ≤ position && distance ≤ p.reach && p.start + position + length ≤ p.stop)
    copy none distance length

/-- Decodes symbols up to where the output is to end, at most `n`. -/
def symbols (p : Piece) : Nat → Coded Unit
  | 0 => return ()
  | n + 1 => do
    if p.stop ≤ (← (written : Step Nat)) then return ()
    else
      symbol p
      symbols p n

/-- Decodes all symbols of a piece, from the start of the code on. -/
def code (p : Piece) : Coded Unit := do
  check ((← (octet : Step UInt8)) == 0)
  let octets ← (octets 4 : Step Bytes)
  modify fun c => { c with range := 0xffffffff, code := Archive.ofLe octets.reverse }
  let before ← (written : Step Nat)
  symbols p (p.stop - before)
  widen p.filler

/-! ## Single streams -/

def Settings.ofOctet? (b : UInt8) : Option Settings :=
  let n := b.toNat
  if n < 225 then some ⟨n % 9, n / 9 % 5, n / 45⟩ else none

/-- The reach of references, when the given one is rounded up. -/
def roundedReach (n : Nat) : Nat := (max 4096 n + 15) / 16 * 16

/-- Writes `size` octets from the code of a stream, after its settings. The code may break off: the
octets that are missing are zeros. -/
def decoder (size : Nat) : Step Unit := do
  let _ ← number 2
  check ((← number 2) == 5)
  let settings ← ofOption (Settings.ofOctet? (← octet))
  let reach ← number 4
  check (reach ≤ 0xfffffff0)
  let (_, _) ← (code ⟨settings, some 0, roundedReach reach, 0, size⟩).run (.fresh settings)
  return ()

/-- The `size` octets that a stream stands for. What follows them does not matter. -/
def decode? (size : Nat) (octets : Bytes) : Option Bytes := whole? (decoder size) octets

/-! ## Chunks -/

/-- What chunks share. -/
structure Series where
  reach : Nat
  /-- Where the first octet that references may reach is in the output, if there is any. -/
  start : Option Nat
  settings : Option Settings
  coder : Coder

/-- Writes the octets of a chunk that is coded, from its control number on. -/
def codedChunk (control start : Nat) (s : Series) : Step Series := do
  let size := control % 32 * 0x10000 + (Archive.ofLe (← octets 2).reverse) + 1
  let codeSize := Archive.ofLe (← octets 2).reverse + 1
  let settings ←
    if 0xc0 ≤ control then ofOption (Settings.ofOctet? (← octet)) else ofOption s.settings
  check (settings.literalBits + settings.placeBits ≤ 4)
  let stop := (← offset) + codeSize
  let coder := if 0xa0 ≤ control then .fresh settings else s.coder
  let (_, coder) ← (code ⟨settings, none, s.reach, start, (← written) + size⟩).run coder
  check ((← offset) == stop && coder.code == 0)
  return { s with start := some start, settings := some settings, coder }

def plainChunk (start : Nat) (s : Series) : Step Series := do
  let size := Archive.ofLe (← octets 2).reverse + 1
  emitAll (← octets size)
  return { s with start := some start }

/-- Writes the octets of chunks up to the end. A chunk that starts afresh forgets all octets before
it, and the settings; others only follow such a one. -/
def chunksAfter : Nat → Series → Step Unit
  | 0, _ => malformed
  | fuel + 1, s => do
    let control := (← octet).toNat
    if control = 0 then return ()
    else
      let here ← written
      let s := if control = 1 || 0xe0 ≤ control then { s with start := some here, settings := none }
        else s
      let start ← ofOption s.start
      check (control ≤ 2 || 0x80 ≤ control)
      let s ← if 0x80 ≤ control then codedChunk control start s else plainChunk start s
      chunksAfter fuel s

/-- Writes the octets of chunks whose references have a reach. -/
def chunks (reach fuel : Nat) : Step Unit :=
  chunksAfter fuel ⟨roundedReach reach, none, none, .fresh ⟨0, 0, 0⟩⟩

end PlatformLink.Lzma
