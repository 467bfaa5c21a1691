import PlatformLink.Reader

/-! # Layout of bytecode

How many octets an instruction takes (`lengthAt`), and the cutting of a code array into its
instructions (`split`). The length follows from the instruction's own octets and its offset: the
operands of the two switches are aligned to a multiple of four from the start of the code.
-/

namespace PlatformLink.Bytecode
set_option autoImplicit false

/-- The alignment octets after a switch opcode at `offset`. -/
def padding (offset : Nat) : Nat := (4 - (offset + 1) % 4) % 4

/-- The length of an instruction whose opcode alone decides it. -/
def fixedLength (opcode : UInt8) : Nat :=
  let n := opcode.toNat
  if n = 0x10 ∨ n = 0x12 ∨ (0x15 ≤ n ∧ n ≤ 0x19) ∨ (0x36 ≤ n ∧ n ≤ 0x3a) ∨ n = 0xa9 ∨ n = 0xbc then
    2
  else if n = 0x11 ∨ n = 0x13 ∨ n = 0x14 ∨ n = 0x84 ∨ (0x99 ≤ n ∧ n ≤ 0xa8) ∨
      (0xb2 ≤ n ∧ n ≤ 0xb8) ∨ n = 0xbb ∨ n = 0xbd ∨ n = 0xc0 ∨ n = 0xc1 ∨ n = 0xc6 ∨ n = 0xc7 then
    3
  else if n = 0xc5 then 4
  else if n = 0xb9 ∨ n = 0xba ∨ n = 0xc8 ∨ n = 0xc9 then 5
  else 1

/-- The signed 32-bit number `at` octets into an instruction; `offset` is the instruction's own. -/
def signedAt (offset position : Nat) (code : Bytes) : Except ClassError Int :=
  match code.drop position with
  | a :: b :: c :: d :: _ => .ok (signed32 (ofBe32 a b c d))
  | _ => .error (.truncated (offset + position))

/-- The length of a `tableswitch`: padding, three numbers, and a target for every key from the
low to the high one. -/
def tableSwitchLength (offset : Nat) (code : Bytes) : Except ClassError Nat := do
  let operands := 1 + padding offset
  let low ← signedAt offset (operands + 4) code
  let high ← signedAt offset (operands + 8) code
  let targets := high - low + 1
  if targets < 0 then throw (.truncated offset)
  return operands + 12 + 4 * targets.toNat

/-- The length of a `lookupswitch`: padding, two numbers, and a key and target for every pair. -/
def lookupSwitchLength (offset : Nat) (code : Bytes) : Except ClassError Nat := do
  let operands := 1 + padding offset
  let pairs ← signedAt offset (operands + 4) code
  if pairs < 0 then throw (.truncated offset)
  return operands + 8 + 8 * pairs.toNat

/-- The length of a `wide` instruction, which the opcode it widens decides. -/
def wideLength (offset : Nat) : Bytes → Except ClassError Nat
  | [] => .error (.truncated (offset + 1))
  | widened :: _ => .ok (if widened = 0x84 then 6 else 4)

/-- The length that the front of `code` asks for, when `code` starts at `offset`. -/
def wantedLength (offset : Nat) (code : Bytes) : Except ClassError Nat :=
  match code with
  | [] => .error (.truncated offset)
  | opcode :: operands =>
    if opcode = 0xc4 then wideLength offset operands
    else if opcode = 0xaa then tableSwitchLength offset code
    else if opcode = 0xab then lookupSwitchLength offset code
    else .ok (fixedLength opcode)

/-- The length of the instruction at the front of `code`, which holds all its octets. -/
def lengthAt (offset : Nat) (code : Bytes) : Except ClassError Nat := do
  let n ← wantedLength offset code
  if (code.take n).length < n then throw (.truncated (offset + code.length))
  return n

/-! ## Lengths are positive -/

theorem fixedLength_pos (opcode : UInt8) : 0 < fixedLength opcode := by
  simp only [fixedLength]
  repeat' split
  all_goals omega

theorem wantedLength_pos {offset n : Nat} {code : Bytes} (h : wantedLength offset code = .ok n) :
    0 < n := by
  unfold wantedLength at h
  split at h
  · cases h
  · rename_i opcode operands
    split at h
    · unfold wideLength at h
      split at h
      · cases h
      · cases h
        split <;> decide
    · split at h
      · simp only [tableSwitchLength, bind, Except.bind, throw, throwThe, MonadExceptOf.throw,
          pure, Except.pure] at h
        repeat' split at h
        all_goals cases h
        omega
      · split at h
        · simp only [lookupSwitchLength, bind, Except.bind, throw, throwThe, MonadExceptOf.throw,
            pure, Except.pure] at h
          repeat' split at h
          all_goals cases h
          omega
        · cases h
          exact fixedLength_pos opcode

/-- A length is positive and no longer than what is left. -/
theorem lengthAt_bounds {offset n : Nat} {code : Bytes} (h : lengthAt offset code = .ok n) :
    0 < n ∧ n ≤ code.length := by
  simp only [lengthAt, bind, Except.bind] at h
  split at h
  · cases h
  · rename_i m hm
    simp only [throw, throwThe, MonadExceptOf.throw, pure, Except.pure] at h
    split at h
    · cases h
    · rename_i hlen
      cases h
      refine ⟨wantedLength_pos hm, ?_⟩
      rw [List.length_take] at hlen
      omega

/-! ## Cutting -/

/-- The instructions of `code`, which starts at `offset`, after those already `done` in
reverse. -/
def splitAfter (done : List Bytes) (offset : Nat) (code : Bytes) : Except ClassError (List Bytes) :=
  if code.isEmpty then .ok done.reverse
  else
    match _h : lengthAt offset code with
    | .error e => .error e
    | .ok n => splitAfter (code.take n :: done) (offset + n) (code.drop n)
termination_by code.length
decreasing_by
  have := lengthAt_bounds ‹_›
  simp only [List.length_drop]
  omega

def split (code : Bytes) : Except ClassError (List Bytes) := splitAfter [] 0 code

@[simp] theorem splitAfter_nil (done : List Bytes) (offset : Nat) :
    splitAfter done offset [] = .ok done.reverse := by
  rw [splitAfter]
  rfl

theorem splitAfter_eq (done : List Bytes) (offset : Nat) (code : Bytes) :
    splitAfter done offset code = (splitAfter [] offset code).map (done.reverse ++ ·) := by
  by_cases h : code.isEmpty = true
  · rw [List.isEmpty_iff.1 h]
    simp [Except.map]
  · rw [splitAfter, splitAfter.eq_def []]
    simp only [h, Bool.false_eq_true, if_false]
    split
    · rfl
    · rename_i n hn
      have hlen := lengthAt_bounds hn
      rw [splitAfter_eq (code.take n :: done), splitAfter_eq [code.take n]]
      cases splitAfter [] (offset + n) (code.drop n) <;> simp [Except.map]
termination_by code.length
decreasing_by
  all_goals
    simp only [List.length_drop]
    omega

/-- The first instruction has the length that it asks for, and the others follow it. -/
theorem splitAfter_of_lengthAt {offset n : Nat} {code : Bytes} (h : lengthAt offset code = .ok n) :
    splitAfter [] offset code =
      (splitAfter [] (offset + n) (code.drop n)).map (code.take n :: ·) := by
  have hlen := lengthAt_bounds h
  have hne : code.isEmpty = false := by
    cases code with
    | nil => simp at hlen; omega
    | cons _ _ => rfl
  rw [splitAfter]
  simp only [hne, Bool.false_eq_true, if_false]
  split
  · rename_i e he
    rw [h] at he
    cases he
  · rename_i m hm
    rw [h] at hm
    cases hm
    rw [splitAfter_eq]
    rfl

end PlatformLink.Bytecode
