import PlatformLink.ClassError
import PlatformLink.Json
import PlatformLink.Path

/-! # Settings

The properties of a run are texts under keys, read from a JSON object of plain values. `Settings`
are the properties with the identifier that stands in when none is given; `Preferences` are the
two values that may be supplied to the rewriting alone and go before the properties.
-/

namespace PlatformLink
set_option autoImplicit false

/-! ## Keys -/

namespace Key

def platformName : String := "architectury.platform.name"

def platformPackage : String := "architectury.platform.package"

def uniqueIdentifier : String := "architectury.unique.identifier"

/-- The gate: `false` turns the rewriting off. -/
def injectables : String := "architectury.inject.injectables"

end Key

/-! ## Properties -/

/-- Texts under keys, the latest first. -/
structure Properties where
  entries : List (String × String)
  deriving DecidableEq, Repr

namespace Properties

def empty : Properties := ⟨[]⟩

def get? (p : Properties) (key : String) : Option String := p.entries.lookup key

def set (p : Properties) (key value : String) : Properties := ⟨(key, value) :: p.entries⟩

@[simp] theorem get?_set (p : Properties) (key value other : String) :
    (p.set key value).get? other = if other = key then some value else p.get? other := by
  by_cases h : other = key
  · subst h
    simp [get?, set]
  · simp [get?, set, List.lookup_cons, h, beq_eq_false_iff_ne.2 h]

/-- The text of a plain JSON value; null stands for no text. -/
def plainText? : Json → Option (Option String)
  | .null => some none
  | .bool value => some (some (if value then "true" else "false"))
  | .number value => some (some value.render)
  | .string value => some (some value)
  | .array _ | .object _ => none

/-- Properties with a member of an object added; a null adds nothing. -/
def absorb (p : Properties) (member : String × Json) : Option Properties := do
  match ← plainText? member.2 with
  | some text => some (p.set member.1 text)
  | none => some p

/-- The properties that a JSON object of plain values gives. -/
def ofJson? : Json → Option Properties
  | .object members => (Json.lastMembers members).foldlM absorb empty
  | _ => none

/-- What is said of a JSON value that gives no properties. -/
def shapeMessage : String := "properties must be an object of strings, booleans, or numbers"

end Properties

/-! ## Settings -/

/-- The properties of a run, and the identifier used when they name none. -/
structure Settings where
  properties : Properties
  fallbackIdentifier : String
  deriving DecidableEq, Repr

namespace Settings

/-- The platform to build for, which must be named. -/
def platformName (s : Settings) : Except ClassError String :=
  match s.properties.get? Key.platformName with
  | some name => .ok name
  | none => .error (.missingProperty Key.platformName)

/-- Whether classes are rewritten and generated: always, unless the gate says `false`. -/
def isEnabled (s : Settings) : Bool := s.properties.get? Key.injectables != some "false"

def uniqueIdentifier (s : Settings) : String :=
  (s.properties.get? Key.uniqueIdentifier).getD s.fallbackIdentifier

end Settings

/-- Values supplied to the rewriting alone. -/
structure Preferences where
  platformPackage : Option String
  uniqueIdentifier : Option String
  deriving DecidableEq, Repr

namespace Preferences

def none : Preferences := ⟨.none, .none⟩

/-- The preferences of a JSON value: the members that are strings. -/
def ofJson (json : Json) : Preferences :=
  ⟨(json.member? Key.platformPackage).bind Json.text?,
    (json.member? Key.uniqueIdentifier).bind Json.text?⟩

end Preferences

/-! ## The identifier of an input -/

/-- A character in lower case as far as the identifier can show it: the letters A to Z, and the
two others whose lower case starts with an ASCII letter. Every other character stands for one
that is no ASCII letter either way. -/
def lowerCase (c : Char) : List Char :=
  if c = 'İ' then ['i', '\u0307']
  else if c = '\u212a' then ['k']
  else [c.toLower]

/-- A character of an identifier: ASCII letters and digits stand for themselves. -/
def identifierChar (c : Char) : Char := if c.isAlphanum then c else '_'

/-- The identifier of an input: its file name without extension, in lower case, with a `_` for
every character that is no ASCII letter or digit. -/
def fallbackIdentifier (path : String) : String :=
  let stem := ((Path.stem? path).getD "").toList
  "architectury_inject_" ++ String.ofList ((stem.flatMap lowerCase).map identifierChar)

end PlatformLink
