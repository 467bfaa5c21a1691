import PlatformLink.Json

/-! # Writing JSON

`Json.pretty` writes a value over several lines, each level two blanks further in. Strings escape
the quote, the backslash and the control characters only.
-/

namespace PlatformLink.Json
set_option autoImplicit false

/-- The lower-case hexadecimal digit of a number below 16. -/
def hexDigit (n : Nat) : Char := Nat.digitChar n

def escape (c : Char) : List Char :=
  if c = '"' then ['\\', '"']
  else if c = '\\' then ['\\', '\\']
  else if c = '\x08' then ['\\', 'b']
  else if c = '\x0c' then ['\\', 'f']
  else if c = '\n' then ['\\', 'n']
  else if c = '\r' then ['\\', 'r']
  else if c = '\t' then ['\\', 't']
  else if c.toNat < 0x20 then
    ['\\', 'u', '0', '0', hexDigit (c.toNat / 16), hexDigit (c.toNat % 16)]
  else [c]

def quote (text : String) : String := String.ofList ('"' :: (text.toList.flatMap escape ++ ['"']))

def newLine (level : Nat) : String := "\n" ++ String.ofList (List.replicate (2 * level) ' ')

mutual

/-- A value whose lines after the first stand at `level`. -/
def render (level : Nat) : Json → String
  | .null => "null"
  | .bool value => if value then "true" else "false"
  | .number value => value.render
  | .string value => quote value
  | .array [] => "[]"
  | .array (item :: rest) =>
    "[" ++ newLine (level + 1) ++ render (level + 1) item ++ renderItems (level + 1) rest ++
      newLine level ++ "]"
  | .object [] => "\x7b\x7d"
  | .object ((name, item) :: rest) =>
    "\x7b" ++ newLine (level + 1) ++ quote name ++ ": " ++ render (level + 1) item ++
      renderMembers (level + 1) rest ++ newLine level ++ "\x7d"

def renderItems (level : Nat) : List Json → String
  | [] => ""
  | item :: rest => "," ++ newLine level ++ render level item ++ renderItems level rest

def renderMembers (level : Nat) : List (String × Json) → String
  | [] => ""
  | (name, item) :: rest =>
    "," ++ newLine level ++ quote name ++ ": " ++ render level item ++ renderMembers level rest

end

def pretty (json : Json) : String := render 0 json

end PlatformLink.Json
