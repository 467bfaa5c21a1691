import PlatformLink.ClassFile

/-! # Reading a class file

`ClassFile.read` takes a class apart. It resolves the names of the class, its super class, its
methods and their attributes through the constant pool, cuts method bodies into instructions, and
walks through the annotation lists; it refuses anything after the end of the class.
-/

namespace PlatformLink
set_option autoImplicit false

def magic : UInt32 := 0xcafebabe

def bodyName : String := "Code"

/-- The name of the attribute that holds annotations kept for run time. -/
def visibleName : String := "RuntimeVisibleAnnotations"

/-- The name of the attribute that holds annotations kept in the class file only. -/
def invisibleName : String := "RuntimeInvisibleAnnotations"

namespace Attribute

/-- An attribute: the index of its name, the length of its payload, the payload. -/
def read : Reader Attribute := do
  let name ← Reader.u16
  let length ← Reader.u32
  let payload ← Reader.take length.toNat
  return ⟨name, payload⟩

def readAll : Reader (List Attribute) := Reader.counted16 read

end Attribute

def Field.read : Reader Field := do
  let access ← Reader.u16
  let name ← Reader.u16
  let descriptor ← Reader.u16
  let attributes ← Attribute.readAll
  return ⟨access, name, descriptor, attributes⟩

def Handler.read : Reader Handler := do
  let start ← Reader.u16
  let stop ← Reader.u16
  let target ← Reader.u16
  let catchType ← Reader.u16
  return ⟨start, stop, target, catchType⟩

def ConstantPool.checkNames (pool : ConstantPool) (attributes : List Attribute) :
    Except ClassError Unit :=
  attributes.forM fun item => do
    let _ ← pool.text item.name

/-- A method body from the front of the payload of its attribute; what follows it is ignored. -/
def Body.read (pool : ConstantPool) : Reader Body := do
  let stack ← Reader.u16
  let locals ← Reader.u16
  let length ← Reader.u32
  let code ← Reader.take length.toNat
  let instructions ← (Bytecode.split code : Except ClassError (List Bytes))
  let handlers ← Reader.counted16 Handler.read
  let attributes ← Attribute.readAll
  (pool.checkNames attributes : Except ClassError Unit)
  return ⟨some ⟨stack, locals⟩, instructions.map .raw, handlers, attributes⟩

namespace Method

/-- A method with one more attribute in front of its order. The first body and the first list of
each kind are taken apart; a repeated one is carried through. -/
def absorb (pool : ConstantPool) (m : Method) (item : Attribute) : Except ClassError Method := do
  let name ← pool.text item.name
  if name = bodyName ∧ m.body = none then
    let body ← Reader.parse (Body.read pool) item.payload
    return { m with body := some body, order := .body :: m.order }
  else if name = visibleName ∧ m.visible = none then
    let entries ← Annotations.decode pool item.payload
    return { m with visible := some entries, order := .visible :: m.order }
  else if name = invisibleName ∧ m.invisible = none then
    let entries ← Annotations.decode pool item.payload
    return { m with invisible := some entries, order := .invisible :: m.order }
  else return { m with order := .other item :: m.order }

def absorbAll (pool : ConstantPool) (m : Method) (attributes : List Attribute) :
    Except ClassError Method := do
  let m ← attributes.foldlM (absorb pool) m
  return { m with order := m.order.reverse }

def read (pool : ConstantPool) : Reader Method := do
  let access ← Reader.u16
  let name ← Annotations.readText pool
  let descriptor ← Annotations.readText pool
  let attributes ← Attribute.readAll
  (absorbAll pool (.bare access name descriptor) attributes : Except ClassError Method)

end Method

namespace ClassFile

/-- The name of the class under the index that comes next. -/
def readName (pool : ConstantPool) : Reader String := do
  let index ← Reader.u16
  pool.className index

/-- The name of the class under the index that comes next, or none for index 0. -/
def readSuperName (pool : ConstantPool) : Reader (Option String) := do
  let index ← Reader.u16
  if index = 0 then return none
  else
    let name ← (pool.className index : Except ClassError String)
    return some name

def readFront : Reader ClassFile := do
  let found ← Reader.u32
  if found ≠ magic then throw (.badMagic found)
  let minor ← Reader.u16
  let major ← Reader.u16
  let pool ← ConstantPool.read
  let access ← Reader.u16
  let name ← readName pool
  let superName ← readSuperName pool
  let interfaces ← Reader.counted16 Reader.u16
  let fields ← Reader.counted16 Field.read
  let methods ← Reader.counted16 (Method.read pool)
  let attributes ← Attribute.readAll
  return ⟨minor, major, pool, access, name, superName, interfaces, fields, methods, attributes⟩

/-- The class that some octets are, to the last one. -/
def read (octets : Bytes) : Except ClassError ClassFile :=
  Reader.parse (do
    let c ← readFront
    Reader.atEnd
    return c) octets

end ClassFile

end PlatformLink
