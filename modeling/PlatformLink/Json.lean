import PlatformLink.Decimal.Shortest

/-! # JSON values

A number is an integer as far as 64 bits go and a double otherwise. Objects keep their members in
the order written; of members with one name the last counts (`Json.member?`).
-/

namespace PlatformLink
set_option autoImplicit false

/-- A JSON number. -/
inductive JsonNumber where
  /-- A number from 0 to 2 ^ 64 - 1. -/
  | natural (value : Nat)
  /-- The negative of a number from 1 to 2 ^ 63. -/
  | negative (value : Nat)
  | double (value : Double)
  deriving DecidableEq, Repr

def JsonNumber.render : JsonNumber → String
  | .natural n => toString n
  | .negative n => "-" ++ toString n
  | .double d => d.render

/-- A JSON value. -/
inductive Json where
  | null
  | bool (value : Bool)
  | number (value : JsonNumber)
  | string (value : String)
  | array (items : List Json)
  | object (members : List (String × Json))
  deriving Repr

namespace Json

/-- The member of a name; only objects have members. -/
def member? (json : Json) (name : String) : Option Json :=
  match json with
  | .object members => (members.reverse.find? fun m => m.1 == name).map Prod.snd
  | _ => none

/-- The members that count: of several with one name the last. -/
def lastMembers : List (String × Json) → List (String × Json)
  | [] => []
  | m :: rest =>
    if rest.any fun other => other.1 == m.1 then lastMembers rest else m :: lastMembers rest

def text? : Json → Option String
  | .string value => some value
  | _ => none

end Json

end PlatformLink
