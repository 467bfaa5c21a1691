import PlatformLink.ClassError

/-! # Method descriptors

The types in a method descriptor, their text (`render`) and the reader of that text (`parse?`),
and how a value of each type is moved: the slots it takes, and the opcodes that load and return
it. A descriptor is `(`, parameter types, `)`, a return type. A type is up to 255 brackets before
a primitive letter, `V`, or `L`, a name and `;`. The reader takes every such text, whatever
follows; `ofString` also asks that no parameter is plain `V`, that every class has a name, and that
nothing follows.
-/

namespace PlatformLink
set_option autoImplicit false

/-! ## Types -/

/-- A primitive type. -/
inductive Primitive where
  | byte | char | double | float | int | long | short | boolean
  deriving DecidableEq, Repr

def Primitive.letter : Primitive → Char
  | .byte => 'B'
  | .char => 'C'
  | .double => 'D'
  | .float => 'F'
  | .int => 'I'
  | .long => 'J'
  | .short => 'S'
  | .boolean => 'Z'

def Primitive.ofLetter? : Char → Option Primitive
  | 'B' => some .byte
  | 'C' => some .char
  | 'D' => some .double
  | 'F' => some .float
  | 'I' => some .int
  | 'J' => some .long
  | 'S' => some .short
  | 'Z' => some .boolean
  | _ => none

/-- What stands after the brackets of a type. -/
inductive Element where
  | primitive (type : Primitive)
  | void
  | object (name : String)
  deriving DecidableEq, Repr

/-- A type: an element under a number of array dimensions. -/
structure JvmType where
  dimensions : Nat
  element : Element
  deriving DecidableEq, Repr

/-- The parameter types and the return type of a method. -/
structure MethodDescriptor where
  parameters : List JvmType
  returnType : JvmType
  deriving DecidableEq, Repr

/-! ## Text -/

def Element.render : Element → List Char
  | .primitive type => [type.letter]
  | .void => ['V']
  | .object name => 'L' :: (name.toList ++ [';'])

def JvmType.render (type : JvmType) : List Char :=
  List.replicate type.dimensions '[' ++ type.element.render

def MethodDescriptor.render (d : MethodDescriptor) : List Char :=
  '(' :: (d.parameters.flatMap JvmType.render ++ ')' :: d.returnType.render)

/-- The name before the first `;`, and what follows it. -/
def className? (cs : List Char) : Option (Element × List Char) :=
  match cs.dropWhile (· != ';') with
  | _ :: rest => some (.object (String.ofList (cs.takeWhile (· != ';'))), rest)
  | [] => none

def Element.parse? : List Char → Option (Element × List Char)
  | [] => none
  | c :: rest =>
    match Primitive.ofLetter? c with
    | some type => some (.primitive type, rest)
    | none =>
      if c = 'V' then some (.void, rest)
      else if c = 'L' then className? rest
      else none

def JvmType.parse? (cs : List Char) : Option (JvmType × List Char) :=
  let dimensions := (cs.takeWhile (· == '[')).length
  if dimensions ≤ 255 then
    (Element.parse? (cs.dropWhile (· == '['))).map fun r => (⟨dimensions, r.1⟩, r.2)
  else none

theorem length_dropWhile_le {α : Type} (p : α → Bool) (l : List α) :
    (l.dropWhile p).length ≤ l.length :=
  (List.dropWhile_sublist p).length_le

theorem className?_length {cs rest : List Char} {e : Element}
    (h : className? cs = some (e, rest)) : rest.length < cs.length := by
  unfold className? at h
  split at h
  · rename_i hdrop
    cases h
    have := length_dropWhile_le (· != ';') cs
    rw [hdrop] at this
    simp only [List.length_cons] at this
    omega
  · cases h

theorem Element.parse?_length {cs rest : List Char} {e : Element}
    (h : Element.parse? cs = some (e, rest)) : rest.length < cs.length := by
  cases cs with
  | nil => cases h
  | cons c cs =>
    simp only [Element.parse?] at h
    split at h
    · cases h
      simp
    · split at h
      · cases h
        simp
      · split at h
        · have := className?_length h
          simp only [List.length_cons]
          omega
        · cases h

theorem JvmType.parse?_length {cs rest : List Char} {type : JvmType}
    (h : JvmType.parse? cs = some (type, rest)) : rest.length < cs.length := by
  simp only [JvmType.parse?] at h
  split at h
  · obtain ⟨⟨e, r⟩, he, heq⟩ := Option.map_eq_some_iff.1 h
    cases heq
    have h1 := Element.parse?_length he
    have h2 := length_dropWhile_le (· == '[') cs
    simp only at h1 ⊢
    omega
  · cases h

namespace MethodDescriptor

/-- The parameter types up to `)`, after those already `done` in reverse, and what follows. -/
def parameters? (done : List JvmType) (cs : List Char) : Option (List JvmType × List Char) :=
  match cs with
  | ')' :: rest => some (done.reverse, rest)
  | cs =>
    match _h : JvmType.parse? cs with
    | some (type, rest) => parameters? (type :: done) rest
    | none => none
termination_by cs.length
decreasing_by exact JvmType.parse?_length ‹_›

theorem parameters?_eq (done : List JvmType) (cs : List Char) :
    parameters? done cs = (parameters? [] cs).map fun r => (done.reverse ++ r.1, r.2) := by
  by_cases h : ∃ rest, cs = ')' :: rest
  · obtain ⟨rest, rfl⟩ := h
    simp [parameters?]
  · rw [parameters?, parameters?]
    · split
      · rename_i type rest hp
        have hlen := JvmType.parse?_length hp
        rw [parameters?_eq (type :: done), parameters?_eq [type]]
        cases parameters? [] rest <;> simp
      · rfl
    · exact fun rest hr => h ⟨rest, hr⟩
    · exact fun rest hr => h ⟨rest, hr⟩
termination_by cs.length

@[simp] theorem parameters?_close (rest : List Char) :
    parameters? [] (')' :: rest) = some ([], rest) := by
  simp [parameters?]

/-- The descriptor that a text starts with. -/
def parse? : List Char → Option MethodDescriptor
  | '(' :: cs => do
    let (parameters, rest) ← parameters? [] cs
    let (returnType, _) ← JvmType.parse? rest
    return ⟨parameters, returnType⟩
  | _ => none

end MethodDescriptor

/-! ## Checks -/

/-- Whether a type is plain `V`. -/
def JvmType.isVoid (type : JvmType) : Bool := type.dimensions == 0 && type.element == .void

/-- Whether the class of a type, if it has one, has a name. -/
def JvmType.hasName (type : JvmType) : Bool := type.element != .object ""

namespace MethodDescriptor

def isProper (d : MethodDescriptor) : Bool :=
  d.parameters.all (fun type => !type.isVoid && type.hasName) && d.returnType.hasName

/-- The descriptor with the given text, or the error that names the text. -/
def ofString (text : String) : Except ClassError MethodDescriptor :=
  match parse? text.toList with
  | some d =>
    if d.isProper && d.render == text.toList then .ok d else .error (.malformedDescriptor text)
  | none => .error (.malformedDescriptor text)

end MethodDescriptor

/-! ## Moving values -/

/-- How a value of a type is held: the five kinds of local variables, or not at all. -/
inductive ValueKind where
  | int | long | float | double | reference | none
  deriving DecidableEq, Repr

namespace ValueKind

def slots : ValueKind → Nat
  | .none => 0
  | .long | .double => 2
  | .int | .float | .reference => 1

theorem slots_le (kind : ValueKind) : kind.slots ≤ 2 := by
  cases kind <;> decide

def loadOpcode : ValueKind → UInt8
  | .int | .none => 0x15
  | .long => 0x16
  | .float => 0x17
  | .double => 0x18
  | .reference => 0x19

def returnOpcode : ValueKind → UInt8
  | .int => 0xac
  | .long => 0xad
  | .float => 0xae
  | .double => 0xaf
  | .reference => 0xb0
  | .none => 0xb1

end ValueKind

/-- The kind of a type: an array or class is a reference, a small number an `int`. -/
def JvmType.kind (type : JvmType) : ValueKind :=
  if type.dimensions == 0 then
    match type.element with
    | .primitive .long => .long
    | .primitive .float => .float
    | .primitive .double => .double
    | .primitive _ => .int
    | .void => .none
    | .object _ => .reference
  else .reference

/-- The slots of the parameters, added up in sixteen bits. -/
def MethodDescriptor.slotSum (d : MethodDescriptor) : UInt16 :=
  d.parameters.foldl (fun sum type => sum + UInt16.ofNat type.kind.slots) 0

def MethodDescriptor.parameterSlots (d : MethodDescriptor) : Nat := d.slotSum.toNat

end PlatformLink
