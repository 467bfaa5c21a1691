import PlatformLink.Path

/-! # Names of archive entries

An entry whose name ends in a separator is a directory. Any other name is safe when it holds no
NUL and never leads above the place where the archive is unpacked, read by the strictest rules in
use: both slashes separate, and a volume in front of the name stands for no directory. In a name
that starts with two backslashes, a question mark and a backslash only backslashes separate.
-/

namespace PlatformLink.EntryName
set_option autoImplicit false

/-- Whether a character separates components. -/
def isSeparator (c : Char) : Bool := c == '/' || c == '\\'

/-- Whether a name is that of a directory. -/
def isDirectory (name : String) : Bool := (name.toList.getLast?.map isSeparator).getD false

/-! ## Volumes -/

/-- Which characters separate the components of a name: behind the marker of a volume that is given
by its name only the backslash. -/
def separatorOf (cs : List Char) : Char → Bool :=
  if ['\\', '\\', '?', '\\'].isPrefixOf cs then (· == '\\') else isSeparator

section
variable (separates : Char → Bool)

def afterSeparator? : List Char → Option (List Char)
  | c :: rest => if separates c then some rest else none
  | [] => none

/-- What follows a component at the front, which is not empty. -/
def afterComponent? : List Char → Option (List Char)
  | c :: rest => if separates c then none else some (rest.dropWhile (!separates ·))
  | [] => none

/-- What follows a server and, if it is there, a share. -/
def afterServer? (cs : List Char) : Option (List Char) :=
  (afterComponent? separates cs).map fun rest =>
    ((afterSeparator? separates rest).bind (afterComponent? separates)).getD rest

def afterTwoSeparators? (cs : List Char) : Option (List Char) :=
  (afterSeparator? separates cs).bind (afterSeparator? separates)

/-- What follows two separators, the character `mark`, and a separator. -/
def afterMarker? (mark : Char) (cs : List Char) : Option (List Char) :=
  match afterTwoSeparators? separates cs with
  | some (c :: rest) => if c = mark then afterSeparator? separates rest else none
  | _ => none

/-- What follows the word for network shares, a server and, if it is there, a share. -/
def afterNetwork? : List Char → Option (List Char)
  | 'U' :: 'N' :: 'C' :: rest => (afterSeparator? separates rest).bind (afterServer? separates)
  | _ => none

/-- What follows a drive such as `C:`. -/
def afterDrive? : List Char → Option (List Char)
  | c :: ':' :: rest => if c.isAlpha then some rest else none
  | _ => none

/-- What follows the name of a volume: a network share, a drive, or any component. -/
def afterName? (cs : List Char) : Option (List Char) :=
  afterNetwork? separates cs <|> afterDrive? cs <|> afterComponent? separates cs

/-- What follows the volume at the front: one by its name, a device, a network share, or a
drive. -/
def afterVolume? (cs : List Char) : Option (List Char) :=
  (afterMarker? separates '?' cs).bind (afterName? separates) <|>
    (afterMarker? separates '.' cs).bind (afterComponent? separates) <|>
    (afterTwoSeparators? separates cs).bind (afterServer? separates) <|> afterDrive? cs

end

/-! ## Depth -/

/-- The depth below the start after some components; none when they lead above it. -/
def depthAfter : Nat → List String → Option Nat
  | depth, [] => some depth
  | depth, piece :: rest =>
    if Path.isIdle piece then depthAfter depth rest
    else if piece = ".." then
      match depth with
      | 0 => none
      | depth + 1 => depthAfter depth rest
    else depthAfter (depth + 1) rest

/-- Whether an entry of this name stays below the place where it is unpacked. -/
def isSafe (name : String) : Bool :=
  let cs := name.toList
  let separates := separatorOf cs
  let rest := (afterVolume? separates cs).getD cs
  !cs.contains '\x00' &&
    (depthAfter 0 ((Path.segments separates rest).map String.ofList)).isSome

end PlatformLink.EntryName
