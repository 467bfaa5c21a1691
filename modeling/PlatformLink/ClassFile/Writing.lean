import PlatformLink.ClassFile.Reading
import PlatformLink.Frame

/-! # Writing a class file

`ClassFile.write` gives the octets of a class. New constants go to the end of a copy of the
class's pool, so the indices in carried-through octets stay right. The attributes of a method are
written at the places they were read from; one that came into being later goes after them.
-/

namespace PlatformLink
set_option autoImplicit false

def Attribute.encode (a : Attribute) : Bytes := be16 a.name ++ (count32 a.payload.length ++ a.payload)

def Attribute.encodeAll (attributes : List Attribute) : Bytes :=
  count16 attributes.length ++ attributes.flatMap Attribute.encode

def Field.encode (f : Field) : Bytes :=
  be16 f.access ++ (be16 f.name ++ (be16 f.descriptor ++ Attribute.encodeAll f.attributes))

def Handler.encode (h : Handler) : Bytes :=
  be16 h.start ++ (be16 h.stop ++ (be16 h.target ++ be16 h.catchType))

namespace Method

/-- The frame of a body: the one it came with, or else the computed one. -/
def frameOf (m : Method) (body : Body) : Except ClassError FrameSize :=
  match body.frame with
  | some frame => .ok frame
  | none => Frame.compute m body.instructions

/-- The payload of a body with its frame and the octets of its instructions. -/
def bodyPayload (frame : FrameSize) (code : Bytes) (body : Body) : Bytes :=
  be16 frame.stack ++ (be16 frame.locals ++ (count32 code.length ++ (code ++
    (count16 body.handlers.length ++ (body.handlers.flatMap Handler.encode ++
      Attribute.encodeAll body.attributes)))))

def bodyAttribute (m : Method) (body : Body) : Interning Attribute := do
  let name ← Interning.text bodyName
  let frame ← (m.frameOf body : Except ClassError FrameSize)
  let code ← body.instructions.mapM Instruction.encode
  return ⟨name, bodyPayload frame code.flatten body⟩

def annotationAttribute (attributeName : String) (entries : List AnnotationEntry) :
    Interning Attribute := do
  let name ← Interning.text attributeName
  let payload ← Annotations.encode entries
  return ⟨name, payload⟩

/-- What is written at a place: nothing where the method has lost, or never had, that part. -/
def attributeAt (m : Method) : Place → Interning (List Attribute)
  | .body =>
    match m.body with
    | none => return []
    | some body => return [← bodyAttribute m body]
  | .visible =>
    match m.visible with
    | none => return []
    | some entries => return [← annotationAttribute visibleName entries]
  | .invisible =>
    match m.invisible with
    | none => return []
    | some entries => return [← annotationAttribute invisibleName entries]
  | .other item => return [item]

/-- The places of a method: those it was read with, then the others. -/
def places (m : Method) : List Place :=
  m.order ++ [.body, .visible, .invisible].filter fun place => !m.order.contains place

def encode (m : Method) : Interning Bytes := do
  let name ← Interning.text m.name
  let descriptor ← Interning.text m.descriptor
  let attributes ← m.places.mapM m.attributeAt
  return be16 m.access ++ (be16 name ++ (be16 descriptor ++ Attribute.encodeAll attributes.flatten))

end Method

namespace ClassFile

/-- The index of the super class, 0 when there is none. -/
def superIndex : Option String → Interning UInt16
  | none => return 0
  | some name => Interning.className name

def encodeMembers (c : ClassFile) : Interning Bytes := do
  let name ← Interning.className c.name
  let superName ← superIndex c.superName
  let methods ← c.methods.mapM Method.encode
  return be16 c.access ++ (be16 name ++ (be16 superName ++
    (count16 c.interfaces.length ++ (c.interfaces.flatMap be16 ++
      (count16 c.fields.length ++ (c.fields.flatMap Field.encode ++
        (count16 c.methods.length ++ (methods.flatten ++
          Attribute.encodeAll c.attributes))))))))

/-- The octets of a class, and the pool they hold. -/
def write (c : ClassFile) : Except ClassError Bytes :=
  match c.encodeMembers.run.run c.pool with
  | (.ok members, pool) =>
    .ok (be32 magic ++ (be16 c.minor ++ (be16 c.major ++ (pool.encode ++ members))))
  | (.error e, _) => .error e

end ClassFile

end PlatformLink
