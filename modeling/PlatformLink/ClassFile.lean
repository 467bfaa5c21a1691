import PlatformLink.Annotations
import PlatformLink.Instruction

/-! # Class files

A class as the rewriter sees it: method bodies and the two annotation lists of methods are taken
apart, everything else is kept as indices and octets. A method remembers the order of its
attributes, so that one that is not touched is written as it was read.
-/

namespace PlatformLink
set_option autoImplicit false

/-! ## Parts -/

/-- An attribute that is carried through as octets. -/
structure Attribute where
  name : UInt16
  payload : Bytes
  deriving DecidableEq, Repr

/-- A field, carried through. -/
structure Field where
  access : UInt16
  name : UInt16
  descriptor : UInt16
  attributes : List Attribute
  deriving DecidableEq, Repr

/-- An exception handler of a method body, carried through. -/
structure Handler where
  start : UInt16
  stop : UInt16
  target : UInt16
  catchType : UInt16
  deriving DecidableEq, Repr

/-- The sizes of a method's frame. -/
structure FrameSize where
  stack : UInt16
  locals : UInt16
  deriving DecidableEq, Repr

/-- A method body. Without a frame size the writer computes one. -/
structure Body where
  frame : Option FrameSize
  instructions : List Instruction
  handlers : List Handler
  attributes : List Attribute
  deriving DecidableEq, Repr

def Body.empty : Body := ⟨none, [], [], []⟩

/-- The place of an attribute of a method. -/
inductive Place where
  | body
  | visible
  | invisible
  | other (item : Attribute)
  deriving DecidableEq, Repr

/-- A method. -/
structure Method where
  access : UInt16
  name : String
  descriptor : String
  body : Option Body
  /-- The annotations kept for run time. -/
  visible : Option (List AnnotationEntry)
  /-- The annotations kept in the class file only. -/
  invisible : Option (List AnnotationEntry)
  order : List Place
  deriving DecidableEq, Repr

/-- A class. -/
structure ClassFile where
  minor : UInt16
  major : UInt16
  pool : ConstantPool
  access : UInt16
  name : String
  superName : Option String
  interfaces : List UInt16
  fields : List Field
  methods : List Method
  attributes : List Attribute

/-! ## Building -/

def Method.bare (access : UInt16) (name descriptor : String) : Method :=
  ⟨access, name, descriptor, none, none, none, []⟩

/-- A class without members, with an empty constant pool. -/
def ClassFile.bare (major access : UInt16) (name : String) (superName : Option String) :
    ClassFile :=
  ⟨0, major, .empty, access, name, superName, [], [], [], []⟩

namespace Method

/-- Whether a method is static. -/
def isStatic (m : Method) : Bool := m.access.toNat / 8 % 2 == 1

/-- Whether a list of annotations holds one of the given type. -/
def mentions (entries : Option (List AnnotationEntry)) (descriptor : String) : Bool :=
  (entries.getD []).any fun entry => entry.descriptor == descriptor

/-- A method with its body changed; one without body starts from the empty body. -/
def mapBody (m : Method) (f : Body → Body) : Method := { m with body := some (f (m.body.getD .empty)) }

/-- A method with more instructions at the end of its body. -/
def append (m : Method) (more : List Instruction) : Method :=
  m.mapBody fun body => { body with instructions := body.instructions ++ more }

/-- A method with a frame size that the writer does not compute. -/
def withFrame (m : Method) (frame : FrameSize) : Method :=
  m.mapBody fun body => { body with frame := some frame }

/-- A method with one more annotation without elements, at the end of the visible or the
invisible list. -/
def annotate (m : Method) (descriptor : String) (visible : Bool) : Method :=
  if visible then { m with visible := some (m.visible.getD [] ++ [.marker descriptor]) }
  else { m with invisible := some (m.invisible.getD [] ++ [.marker descriptor]) }

end Method

def ClassFile.addMethod (c : ClassFile) (m : Method) : ClassFile :=
  { c with methods := c.methods ++ [m] }

end PlatformLink
