import PlatformLink.Collection
import PlatformLink.PlatformClass

/-! # Planning the output

`Plan.make` takes the collected entries to everything that a run will write, without writing any
of it: every class is forwarded, written and held against the second grammar if it changed, and
what is emitted besides comes last. Log records survive a failure.
-/

namespace PlatformLink
set_option autoImplicit false

/-- A computation that logs and may stop; what was logged before it stopped stays. -/
abbrev Logged := ExceptT RunError (StateM (Array LogRecord))

namespace Logged

def records (log : List LogRecord) : Logged Unit := fun before => (.ok (), before ++ log)

def say (level : LogLevel) (message : String) : Logged Unit := records [⟨level, message⟩]

end Logged

/-- What became of one entry. -/
structure Processed where
  entry : Entry
  changed : Bool
  diagnostics : List Diagnostic

/-- Everything that a run will write, and what it has to say about it. -/
structure Plan where
  /-- What is written, in order. -/
  entries : List Entry
  classCount : Nat
  rewrittenCount : Nat
  diagnostics : List Diagnostic

namespace Plan

/-- The octets of a changed class that goes to `path`, accepted by the second grammar. -/
def checkedOctets (path : String) (c : ClassFile) : Except RunError Bytes := do
  let octets ← classInContext s!"failed to write {c.name}" c.write
  if Acceptance.accepts octets then return octets
  else throw ⟨[unacceptableMessage path], .acceptance⟩

/-- An entry that holds the class `c` as it will be written. Only a class that changed is written
anew. -/
def processClass (p : Preferences) (s : Settings) (entry : Entry) (c : ClassFile) :
    Logged Processed := do
  let edit := Forwarding.edit p s c.name c
  Logged.records edit.log
  match edit.failure with
  | some e => throw ⟨[s!"{Forwarding.rule.id} failed on {c.name}"], .classFile e⟩
  | none =>
    if edit.changed then
      let octets ← (checkedOctets entry.path edit.classFile : Except RunError Bytes)
      return ⟨⟨entry.path, .raw octets⟩, true, edit.diagnostics⟩
    else return ⟨entry, false, edit.diagnostics⟩

/-- An entry as it will be written. -/
def process (p : Preferences) (s : Settings) (entry : Entry) : Logged Processed := do
  if entry.isClass then
    let c ← (classInContext s!"failed to parse {entry.path}" (ClassFile.read entry.content.octets)
      : Except RunError ClassFile)
    processClass p s entry c
  else return ⟨entry, false, []⟩

def emitted (p : Preferences) (s : Settings) : Logged (List Entry) := do
  Logged.say .debug s!"asset pass: {Forwarding.rule.name}"
  let (log, files) := PlatformClass.emit p s
  Logged.records log
  let files ← (classInContext s!"{Forwarding.rule.id} failed to emit assets" files
    : Except RunError PlatformClass.Emitted)
  return files.map fun f => ⟨f.1, .raw f.2⟩

/-- The plan for what stands at the path `input`. -/
def make (p : Preferences) (s : Settings) (input : String) (snapshot : Snapshot) : Logged Plan := do
  let collected ← (Entry.collect input snapshot : Except RunError (List Entry))
  let entries := Entry.manifestFirst collected
  let processed ← entries.mapM (process p s)
  let besides ← emitted p s
  return {
    entries := processed.map (·.entry) ++ besides
    classCount := (entries.filter Entry.isClass).length
    rewrittenCount := (processed.filter (·.changed)).length
    diagnostics := processed.flatMap (·.diagnostics) }

end Plan

end PlatformLink
