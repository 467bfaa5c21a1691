import PlatformLink.Diagnostic
import PlatformLink.Json

/-! # Reports

The diagnostics of a run as a log in the Static Analysis Results Interchange Format: one tool with
its rules, one invocation, and one result for each diagnostic, in order, located by the method.
-/

namespace PlatformLink.Report
set_option autoImplicit false

/-- How the program was called, and whether it succeeded. -/
structure Invocation where
  successful : Bool
  arguments : List String
  deriving DecidableEq, Repr

/-- The place of a schema for the format. -/
def schema : String := "https://schemastore.azurewebsites.net/schemas/json/sarif-2.1.0.json"

/-- The place of a diagnostic: the method it is about. -/
def location (d : Diagnostic) : Json :=
  .object [("logicalLocations", .array [.object [
    ("kind", .string "function"),
    ("name", .string s!"{d.className}.{d.methodName}{d.descriptor}")]])]

def result (d : Diagnostic) : Json :=
  .object [("locations", .array [location d]),
    ("message", .object [("text", .string d.message)]),
    ("ruleId", .string d.rule)]

def rule (r : Rule) : Json :=
  .object [("id", .string r.id), ("name", .string r.name),
    ("shortDescription", .object [("text", .string r.description)])]

def tool (rules : List Rule) : Json :=
  .object [("driver", .object [("name", .string "platformer"),
    ("rules", .array (rules.map rule)), ("version", .string "0.1.0")])]

def invocation (i : Invocation) : Json :=
  .object [("arguments", .array (i.arguments.map .string)),
    ("commandLine", .string (" ".intercalate i.arguments)),
    ("executionSuccessful", .bool i.successful)]

def build (rules : List Rule) (diagnostics : List Diagnostic) (i : Invocation) : Json :=
  .object [("$schema", .string schema),
    ("runs", .array [.object [("invocations", .array [invocation i]),
      ("results", .array (diagnostics.map result)), ("tool", tool rules)]]),
    ("version", .string "2.1.0")]

end PlatformLink.Report
