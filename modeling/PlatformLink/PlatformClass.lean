import PlatformLink.Acceptance
import PlatformLink.ClassFile.Writing
import PlatformLink.Forwarding

/-! # The generated class

Besides the rewritten classes a run emits one class of its own, whose only method returns the
name of the platform. `PlatformClass.emit` builds it and holds it against the second grammar.
-/

namespace PlatformLink.PlatformClass
set_option autoImplicit false

/-- The name of the method that returns the platform's name. -/
def getter : String := "getCurrentTarget"

def getterDescriptor : String := "()Ljava/lang/String;"

/-- The class `name` for a platform: public and final, with one public static method that pushes
the platform's name and returns it. -/
def classFile (name platform : String) : ClassFile :=
  (ClassFile.bare 52 0x0011 name (some "java/lang/Object")).addMethod
    ((Method.bare 0x0009 getter getterDescriptor).append [.pushString platform, .plain 0xb0])

/-- The octets of the class `name` for the platform of the settings. -/
def build (s : Settings) (name : String) : Except ClassError Bytes := do
  let platform ← s.platformName
  (classFile name platform).write

/-- An emitted file, before it has a place. -/
abbrev Emitted := List (String × Bytes)

/-- What is emitted besides the rewritten classes, and what is logged on the way. With the gate
closed that is nothing. -/
def emit (p : Preferences) (s : Settings) : List LogRecord × Except ClassError Emitted :=
  if s.isEnabled then
    let name := Forwarding.helperName p s
    let path := name ++ ".class"
    match build s name with
    | .error e => ([], .error e)
    | .ok octets =>
      ([⟨.info, s!"emitting {name}"⟩],
        if Acceptance.accepts octets then .ok [(path, octets)] else .error (.unacceptable path))
  else ([], .ok [])

end PlatformLink.PlatformClass
