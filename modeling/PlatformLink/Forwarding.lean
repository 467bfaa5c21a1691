import PlatformLink.Diagnostic
import PlatformLink.Frame
import PlatformLink.Marker
import PlatformLink.Settings

/-! # Forwarding marked methods

A marked static method gets a body that passes its parameters on to the method of the same name
and descriptor in the implementation class for the platform, and the annotation that says so. A
marked method that is not static is reported. `Forwarding.edit` does this to the methods of a
class in order, up to the first one that fails; a method that failed, and all after it, stay as
they were.
-/

namespace PlatformLink
set_option autoImplicit false

namespace Forwarding

/-- The rule under which problems are reported. -/
def rule : Rule :=
  ⟨"EXPECT_PLATFORM", "Expect platform",
    "Forwards @ExpectPlatform methods to per-platform implementation classes"⟩

/-! ## Names -/

/-- The package segment of the platform: the supplied one, that of the properties, or the name of
the platform, where `quilt` goes by `fabric`. -/
def platformSegment (supplied : Option String) (s : Settings) : Except ClassError String :=
  match supplied.or (s.properties.get? Key.platformPackage) with
  | some segment => .ok segment
  | none => do
    let platform ← s.platformName
    return if platform = "quilt" then "fabric" else platform

/-- The implementation class of a class: nested classes flattened, `Impl` at the end, in the
package `segment` below the class's own. -/
def implementationName (owner segment : String) : String :=
  let backwards := ((owner.toList.filter (· != '$')) ++ "Impl".toList).reverse
  let simple := (backwards.takeWhile (· != '/')).reverse
  match backwards.dropWhile (· != '/') with
  | [] => segment ++ "/" ++ String.ofList simple
  | _ :: package =>
    String.ofList package.reverse ++ "/" ++ segment ++ "/" ++ String.ofList simple

def uniqueIdentifier (p : Preferences) (s : Settings) : String :=
  p.uniqueIdentifier.getD s.uniqueIdentifier

def helperName (p : Preferences) (s : Settings) : String :=
  uniqueIdentifier p s ++ "/PlatformMethods"

/-- The class that asks for the platform on behalf of methods with a marker. -/
def helperOf (p : Preferences) (s : Settings) : Marker → String
  | .legacy => "me/shedaniel/architectury/PlatformMethods"
  | _ => helperName p s

/-! ## Bodies -/

/-- One load for each parameter, the first from local variable `slot`, after the instructions
already `done` in reverse. -/
def loadsAfter (done : List Instruction) (slot : Nat) : List JvmType → List Instruction
  | [] => done.reverse
  | type :: rest =>
    loadsAfter (.variable type.kind.loadOpcode (UInt16.ofNat slot) :: done)
      (slot + type.kind.slots) rest

/-- One load for each parameter, the first from local variable `slot`. -/
def loads (slot : Nat) (parameters : List JvmType) : List Instruction :=
  loadsAfter [] slot parameters

theorem loadsAfter_eq (done : List Instruction) (slot : Nat) (parameters : List JvmType) :
    loadsAfter done slot parameters = done.reverse ++ loads slot parameters := by
  induction parameters generalizing done slot with
  | nil => simp [loads, loadsAfter]
  | cons type rest ih =>
    simp only [loads, loadsAfter]
    rw [ih, ih [_]]
    simp

@[simp] theorem loads_nil (slot : Nat) : loads slot [] = [] := rfl

theorem loads_cons (slot : Nat) (type : JvmType) (rest : List JvmType) :
    loads slot (type :: rest) =
      .variable type.kind.loadOpcode (UInt16.ofNat slot) :: loads (slot + type.kind.slots) rest := by
  simp only [loads, loadsAfter]
  rw [loadsAfter_eq]
  rfl

/-- The instructions that pass the parameters of a method on to `target` and return its
result. -/
def instructions (target : String) (m : Method) (d : MethodDescriptor) : List Instruction :=
  loads 0 d.parameters ++
    [.invoke 0xb8 target m.name m.descriptor false, .plain d.returnType.kind.returnOpcode]

/-- A method forwarded to `target`: a body of the forwarding instructions alone, and the
annotation that says so. -/
def forward (target : String) (m : Method) (d : MethodDescriptor) : Method :=
  { m with body := some ⟨none, instructions target m d, [], []⟩ }.annotate Marker.done false

/-! ## Methods -/

/-- What became of one method. -/
structure Step where
  method : Method
  changed : Bool
  log : List LogRecord
  diagnostic : Option Diagnostic
  failure : Option ClassError

/-- The step that leaves a method alone. -/
def Step.skip (m : Method) (log : List LogRecord) : Step := ⟨m, false, log, none, none⟩

/-- The problem of a marked method that is not static. -/
def notStatic (owner : String) (m : Method) : Diagnostic :=
  ⟨rule.id, owner, m.name, m.descriptor,
    s!"@ExpectPlatform can only apply to static methods: {owner}.{m.name}{m.descriptor}"⟩

/-- A static method of `owner` forwarded to the implementation for the platform. -/
def forward? (p : Preferences) (s : Settings) (owner : String) (m : Method) :
    Except ClassError Method := do
  let d ← MethodDescriptor.ofString m.descriptor
  let segment ← platformSegment p.platformPackage s
  return forward (implementationName owner segment) m d

/-- The step for a method of the class `owner`; log records call the class `label`. -/
def step (p : Preferences) (s : Settings) (label owner : String) (m : Method) : Step :=
  match m.marker? with
  | none => .skip m []
  | some marker =>
    if m.isForwarded then
      .skip m [⟨.trace, s!"{label}.{m.name}{m.descriptor} already transformed"⟩]
    else
      let start : LogRecord :=
        ⟨.debug, s!"rewriting {label}.{m.name}{m.descriptor} ({marker.label}, helper {helperOf p s marker})"⟩
      if m.isStatic then
        match forward? p s owner m with
        | .ok m => ⟨m, true, [start], none, none⟩
        | .error e => ⟨m, false, [start], none, some e⟩
      else
        let problem := notStatic owner m
        ⟨m, false, [start, ⟨.error, problem.message⟩], some problem, none⟩

/-! ## Classes -/

/-- What became of a class. -/
structure Edit where
  classFile : ClassFile
  changed : Bool
  log : List LogRecord
  diagnostics : List Diagnostic
  failure : Option ClassError

def succeeded (steps : List Step) : List Step := steps.takeWhile fun step => step.failure.isNone

/-- The edit of a class whose methods have come to `steps`. -/
def Edit.ofSteps (c : ClassFile) (steps : List Step) : Edit :=
  let front := succeeded steps
  let back := steps.drop front.length
  { classFile := { c with methods := front.map (·.method) ++ c.methods.drop front.length }
    changed := front.any (·.changed)
    log := (steps.take (front.length + 1)).flatMap (·.log)
    diagnostics := front.filterMap (·.diagnostic)
    failure := back.head?.bind (·.failure) }

/-- Forwards the marked methods of a class. Log records call the class `label`. -/
def edit (p : Preferences) (s : Settings) (label : String) (c : ClassFile) : Edit :=
  if s.isEnabled then Edit.ofSteps c (c.methods.map (step p s label c.name))
  else ⟨c, false, [], [], none⟩

end Forwarding

end PlatformLink
