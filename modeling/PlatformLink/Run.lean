import PlatformLink.CommandLine
import PlatformLink.Json.Parsing
import PlatformLink.Json.Printing
import PlatformLink.Output
import PlatformLink.Plan
import PlatformLink.Report

/-! # Runs

A run looks at its input, loads the properties, plans the output, writes it, and writes the
report. Nothing is written before the plan is complete. `Run.perform` does this on any storage.
-/

namespace PlatformLink.Run
set_option autoImplicit false

variable {m : Type → Type} [Monad m] [Storage m]

/-- What a run has to say in the end. -/
structure Summary where
  classCount : Nat
  rewrittenCount : Nat
  diagnosticCount : Nat
  /-- What goes to the standard output. -/
  printed : Option String
  deriving DecidableEq, Repr

/-- A run on a storage: it logs and may stop. -/
abbrev Running (m : Type → Type) := ExceptT RunError (StateT (Array LogRecord) m)

def ofLogged {α : Type} (action : Logged α) : Running m α := fun log =>
  return action.run.run log

def onStorage {α : Type} (action : m α) : Running m α := fun log => do
  let a ← action
  return (.ok a, log)

/-! ## Settings -/

/-- The properties that the file at `path` gives. -/
def loadProperties (path : String) : Snapshot → Except RunError Properties
  | .file content =>
    match String.fromUTF8? (ByteArray.mk content.octets.toArray) with
    | none => .error ⟨[s!"failed to read {path}"], .file none⟩
    | some text =>
      match Json.parse? text with
      | none => .error ⟨[s!"failed to parse {path}"], .json⟩
      | some json =>
        match Properties.ofJson? json with
        | none => .error ⟨[s!"invalid properties in {path}", Properties.shapeMessage], .json⟩
        | some properties => .ok properties
  | _ => .error ⟨[s!"failed to read {path}"], .file none⟩

/-- The settings for some arguments: the platform they name goes before that of the properties. -/
def settings (a : Arguments) (properties : Properties) : Settings :=
  ⟨match a.platformName with
    | some name => properties.set Key.platformName name
    | none => properties,
    fallbackIdentifier a.input⟩

/-- The values that the arguments supply to the rewriting alone, under their keys. -/
def supplied (a : Arguments) : Json :=
  .object (a.platformPackage.toList.map (fun package => (Key.platformPackage, .string package)) ++
    a.uniqueIdentifier.toList.map fun identifier => (Key.uniqueIdentifier, .string identifier))

def preferences (a : Arguments) : Preferences := .ofJson (supplied a)

theorem preferences_eq (a : Arguments) :
    preferences a = ⟨a.platformPackage, a.uniqueIdentifier⟩ := by
  unfold preferences supplied
  cases a.platformPackage <;> cases a.uniqueIdentifier <;> rfl

def properties (a : Arguments) : Running m Properties := do
  match a.properties with
  | none => return .empty
  | some path =>
    let snapshot ← onStorage (Storage.look path)
    (loadProperties path snapshot : Except RunError Properties)

/-! ## Reports -/

/-- Whether a report goes to the standard output. -/
def isStandardOutput (path : String) : Bool := Path.components path == [.name "-"]

def reportText (diagnostics : List Diagnostic) (commandLine : List String) : String :=
  (Report.build [Forwarding.rule] diagnostics ⟨true, commandLine⟩).pretty ++ "\n"

/-- Writes the report, or gives the text for the standard output. -/
def report (a : Arguments) (commandLine : List String) (diagnostics : List Diagnostic) :
    Running m (Option String) := do
  match a.report with
  | none => return none
  | some path =>
    let text := reportText diagnostics commandLine
    if isStandardOutput path then return some text
    else
      let stored ← onStorage (Storage.store path (.raw text.toUTF8.toList))
      if stored then return none
      else throw ⟨[s!"failed to open {path}"], .file none⟩

def closing (a : Arguments) (plan : Plan) : List LogRecord :=
  if a.quiet then []
  else
    let count := plan.diagnostics.length
    ⟨.info, s!"classes={plan.classCount} rewritten={plan.rewrittenCount} diagnostics={count}"⟩ ::
      (if count = 0 then [] else [⟨.warn, s!"{count} method(s) could not be rewritten"⟩])

/-! ## The run -/

/-- Plans the output for what stands at the path `input`, and writes it to the path `output`. -/
def transform (p : Preferences) (s : Settings) (input output : String) (snapshot : Snapshot) :
    Running m Plan := do
  let plan ← ofLogged (Plan.make p s input snapshot)
  let written ← onStorage (Output.write output plan.entries)
  (written : Except RunError Unit)
  ofLogged (Logged.say .info s!"rewrote {plan.rewrittenCount} of {plan.classCount} classes")
  return plan

/-- Runs with some arguments. `commandLine` is what the report says of the call. -/
def running (a : Arguments) (commandLine : List String) : Running m Summary := do
  let input ← onStorage (Storage.look a.input)
  if input = .missing then throw ⟨[], .other s!"input not found: {a.input}"⟩
  let loaded ← properties a
  let plan ← transform (preferences a) (settings a loaded) a.input a.output input
  let printed ← report a commandLine plan.diagnostics
  ofLogged (Logged.records (closing a plan))
  return ⟨plan.classCount, plan.rewrittenCount, plan.diagnostics.length, printed⟩

/-- Runs with some arguments: the result, and the log. -/
def perform (a : Arguments) (commandLine : List String) :
    m (Except RunError Summary × Array LogRecord) :=
  (running a commandLine).run.run #[]

end PlatformLink.Run
