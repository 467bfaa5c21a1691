import PlatformLink.Text.JavaText

/-! # The second grammar of class files

Every class that is emitted is checked by a grammar of its own, independent of the reader: it
knows each standard attribute by name and walks through its body, and it refuses attributes of
any other name and anything left over. The length of an attribute is read but the body alone
decides where it ends. `accepts` is the check.
-/

namespace PlatformLink.Acceptance
set_option autoImplicit false

/-- Walks over something at the front of some octets: what is left, or nothing if it is not
there. -/
abbrev Walk := Bytes → Option Bytes

/-! ## Walks -/

def nothing : Walk := some

/-- The walk that never succeeds. -/
def refused : Walk := fun _ => none

/-- Over `n` octets. -/
def skip (n : Nat) : Walk := fun octets => (splitExact? n octets).map Prod.snd

def andThen (first second : Walk) : Walk := fun octets => (first octets).bind second

/-- A walk repeated `n` times. -/
def times (item : Walk) : Nat → Walk
  | 0, octets => some octets
  | n + 1, octets =>
    match item octets with
    | some rest => times item n rest
    | none => none

def withU8 (next : UInt8 → Walk) : Walk
  | a :: rest => next a rest
  | [] => none

/-- A 16-bit number that decides what comes next. -/
def withU16 (next : Nat → Walk) : Walk
  | a :: b :: rest => next (ofBe16 a b).toNat rest
  | _ => none

/-- A 32-bit number that decides what comes next. -/
def withU32 (next : Nat → Walk) : Walk
  | a :: b :: c :: d :: rest => next (ofBe32 a b c d).toNat rest
  | _ => none

/-- An 8-bit count and as many items. -/
def listU8 (item : Walk) : Walk := withU8 fun n => times item n.toNat

/-- A 16-bit count and as many items. -/
def listU16 (item : Walk) : Walk := withU16 (times item)

/-! ## Constants -/

/-- The octets of the fields behind the tag of a constant of fixed size. -/
def constantSize? (tag : UInt8) : Option Nat :=
  let n := tag.toNat
  if n = 7 ∨ n = 8 ∨ n = 16 ∨ n = 19 ∨ n = 20 then some 2
  else if n = 15 then some 3
  else if n = 3 ∨ n = 4 ∨ n = 9 ∨ n = 10 ∨ n = 11 ∨ n = 12 ∨ n = 17 ∨ n = 18 then some 4
  else if n = 5 ∨ n = 6 then some 8
  else none

/-- What later checks need of a slot: the octets of a text, or that it holds no text. -/
abbrev Slots := Array (Option Bytes)

/-- Takes the constant at the front: the slots it fills, and what is left. -/
def constant? : Bytes → Option (List (Option Bytes) × Bytes)
  | 1 :: a :: b :: rest => do
    let (text, rest) ← splitExact? (ofBe16 a b).toNat rest
    if JavaText.accepts text then some ([some text], rest) else none
  | tag :: rest => do
    let size ← constantSize? tag
    let rest ← skip size rest
    some (if tag = 5 ∨ tag = 6 then [none, none] else [none], rest)
  | [] => none

/-- Constants are taken until at least `count` slots are filled, slot 0 included. At most as many
as `fuel` are taken, and each fills a slot. -/
def constants? (count : Nat) : Nat → Slots → Bytes → Option (Slots × Bytes)
  | 0, slots, octets => some (slots, octets)
  | fuel + 1, slots, octets =>
    if slots.size < count then
      match constant? octets with
      | some (filled, rest) => constants? count fuel (slots ++ filled) rest
      | none => none
    else some (slots, octets)

/-- The slots of a constant pool, and what is left. -/
def pool? : Bytes → Option (Slots × Bytes)
  | a :: b :: rest =>
    let count := (ofBe16 a b).toNat
    constants? count count #[none] rest
  | _ => none

/-! ## Elements of annotations -/

/-- The type, and the pairs of a name and a value, of an entry. -/
def entryWith (value : Walk) : Walk := andThen (skip 2) (listU16 (andThen (skip 2) value))

/-- An element value that nests at most `depth` deep. -/
def elementValue : Nat → Walk
  | 0 => refused
  | depth + 1 => withU8 fun tag =>
    let n := tag.toNat
    if n ∈ [0x42, 0x43, 0x44, 0x46, 0x49, 0x4a, 0x53, 0x5a, 0x73, 0x63] then skip 2
    else if n = 0x65 then skip 4
    else if n = 0x40 then entryWith (elementValue depth)
    else if n = 0x5b then listU16 (elementValue depth)
    else refused

/-- The place in the code or signature that a type annotation is about. -/
def typeTarget : Walk := withU8 fun kind =>
  let n := kind.toNat
  if n ≤ 0x01 then skip 1
  else if n = 0x10 then skip 2
  else if n = 0x11 ∨ n = 0x12 then skip 2
  else if 0x13 ≤ n ∧ n ≤ 0x15 then nothing
  else if n = 0x16 then skip 1
  else if n = 0x17 then skip 2
  else if n = 0x40 ∨ n = 0x41 then listU16 (skip 6)
  else if 0x42 ≤ n ∧ n ≤ 0x46 then skip 2
  else if 0x47 ≤ n ∧ n ≤ 0x4b then skip 3
  else refused

/-- A type annotation: its place, a path of two-octet steps, and an entry. -/
def typeEntry (value : Walk) : Walk :=
  andThen typeTarget (andThen (listU8 (skip 2)) (entryWith value))

/-! ## Stack maps -/

def frameType : Walk := withU8 fun kind =>
  let n := kind.toNat
  if n ≤ 6 then nothing
  else if n = 7 ∨ n = 8 then skip 2
  else refused

def stackFrame : Walk := withU8 fun kind =>
  let n := kind.toNat
  if n ≤ 63 then nothing
  else if n ≤ 127 then frameType
  else if n ≤ 246 then refused
  else if n = 247 then andThen (skip 2) frameType
  else if n ≤ 251 then skip 2
  else if n ≤ 254 then andThen (skip 2) (times frameType (n - 251))
  else andThen (skip 2) (andThen (listU16 frameType) (listU16 frameType))

/-! ## Attributes -/

/-- The body of an attribute, by the form it has. -/
inductive Form where
  /-- A number of octets. -/
  | fixed (size : Nat)
  /-- A counted list of items of one size. -/
  | rows (size : Nat)
  | code
  | entries
  | parameterEntries
  | typeEntries
  | defaultValue
  | stackMap
  | bootstraps
  | parameters
  | record
  deriving DecidableEq, Repr

def formOf? (name : String) : Option Form :=
  match name with
  | "ConstantValue" | "SourceFile" | "Signature" | "NestHost" => some (.fixed 2)
  | "Synthetic" | "Deprecated" => some (.fixed 0)
  | "EnclosingMethod" => some (.fixed 4)
  | "Code" => some .code
  | "Exceptions" | "NestMembers" | "PermittedSubclasses" => some (.rows 2)
  | "LineNumberTable" => some (.rows 4)
  | "LocalVariableTable" | "LocalVariableTypeTable" => some (.rows 10)
  | "InnerClasses" => some (.rows 8)
  | "RuntimeVisibleAnnotations" | "RuntimeInvisibleAnnotations" => some .entries
  | "RuntimeVisibleParameterAnnotations" => some .parameterEntries
  | "RuntimeVisibleTypeAnnotations" => some .typeEntries
  | "AnnotationDefault" => some .defaultValue
  | "StackMapTable" => some .stackMap
  | "BootstrapMethods" => some .bootstraps
  | "MethodParameters" => some .parameters
  | "Record" => some .record
  | _ => none

/-- Whether an attribute must have as many octets left as its length says. -/
def mustHold (name : String) : Bool :=
  name == "RuntimeVisibleAnnotations" || name == "AnnotationDefault"

def nameAt? (slots : Slots) (index : Nat) : Option String := do
  let octets ← (← slots[index]?)
  String.fromUTF8? (ByteArray.mk octets.toArray)

/-- A body of a form, with walks for the attributes and element values inside. -/
def formBody (inner value : Walk) : Form → Walk
  | .fixed size => skip size
  | .rows size => listU16 (skip size)
  | .code =>
    andThen (skip 4) (andThen (withU32 skip)
      (andThen (listU16 (skip 8)) (listU16 inner)))
  | .entries => listU16 (entryWith value)
  | .parameterEntries => listU8 (listU16 (entryWith value))
  | .typeEntries => listU16 (typeEntry value)
  | .defaultValue => value
  | .stackMap => listU16 stackFrame
  | .bootstraps => listU16 (andThen (skip 2) (listU16 (skip 2)))
  | .parameters => listU8 (skip 4)
  | .record => listU16 (andThen (skip 4) (listU16 inner))

/-- An attribute that nests at most `depth` deep. -/
def attributeWalk (slots : Slots) : Nat → Walk
  | 0 => refused
  | depth + 1 => withU16 fun index => withU32 fun length octets =>
    match nameAt? slots index with
    | none => none
    | some name =>
      match formOf? name with
      | none => none
      | some form =>
        if mustHold name && (octets.take length).length < length then none
        else formBody (attributeWalk slots depth) (elementValue depth) form octets

/-! ## Classes -/

/-- What follows the constant pool of a class, with a walk for attributes. -/
def members (item : Walk) : Walk :=
  let member := andThen (skip 6) (listU16 item)
  andThen (skip 6) (andThen (listU16 (skip 2)) (andThen (listU16 member)
    (andThen (listU16 member) (listU16 item))))

/-- Whether the second grammar takes some octets as a class. Every level of nesting takes an
octet, so their number bounds the depth. -/
def accepts (octets : Bytes) : Bool :=
  match octets with
  | 0xca :: 0xfe :: 0xba :: 0xbe :: _ :: _ :: _ :: _ :: rest =>
    match pool? rest with
    | some (slots, rest) => members (attributeWalk slots (octets.length + 1)) rest == some []
    | none => false
  | _ => false

end PlatformLink.Acceptance
