/-! # Path texts

Paths are texts with `/` between their components. This module reads one apart (`components`),
and gives the parent, the file name, the stem and the extension of a path, and whether a path
stays below the place it is used from.
-/

namespace PlatformLink.Path
set_option autoImplicit false

/-- A component of a path. -/
inductive Component where
  /-- The leading `/`. -/
  | root
  /-- A leading `.`; elsewhere a `.` is no component. -/
  | current
  | parent
  | name (text : String)
  deriving DecidableEq, Repr

/-- The texts between separators, when `done` and the start of the next one, both in reverse, went
before. -/
def segmentsAfter (separator : Char → Bool) (done : List (List Char)) (start : List Char) :
    List Char → List (List Char)
  | [] => (start.reverse :: done).reverse
  | c :: rest =>
    if separator c then segmentsAfter separator (start.reverse :: done) [] rest
    else segmentsAfter separator done (c :: start) rest

/-- The texts between separators; there is one more of them than separators. -/
def segments (separator : Char → Bool) (cs : List Char) : List (List Char) :=
  segmentsAfter separator [] [] cs

def pieces (path : String) : List String :=
  (segments (· == '/') path.toList).map String.ofList

/-- The component of a text between slashes; an empty text and `.` are none. -/
def Component.ofPiece? (piece : String) : Option Component :=
  if piece = "" ∨ piece = "." then none
  else if piece = ".." then some .parent
  else some (.name piece)

def components (path : String) : List Component :=
  let inner := (pieces path).filterMap Component.ofPiece?
  match pieces path with
  | "" :: _ :: _ => .root :: inner
  | "." :: _ => .current :: inner
  | _ => inner

/-- The name of the file a path leads to, if it ends in a name. -/
def fileName? (path : String) : Option String :=
  match (components path).getLast? with
  | some (.name text) => some text
  | _ => none

/-- A name cut at its last point: what goes before, and what follows if there is something before
the point. -/
def splitName (name : String) : String × Option String :=
  let cs := name.toList.reverse
  match cs.dropWhile (· != '.') with
  | _ :: c :: before =>
    (String.ofList (c :: before).reverse, some (String.ofList (cs.takeWhile (· != '.')).reverse))
  | _ => (name, none)

/-- The name of the file a path leads to, without extension. -/
def stem? (path : String) : Option String := (fileName? path).map fun name => (splitName name).1

def extension? (path : String) : Option String :=
  (fileName? path).bind fun name => (splitName name).2

/-! ## Parents and children -/

/-- Whether a text between slashes, after the first one, adds nothing to a path. -/
def isIdle (piece : String) : Bool := piece == "" || piece == "."

def dropIdle (pieces : List String) : List String := (pieces.reverse.dropWhile isIdle).reverse

/-- The path without its last component; the root and the empty path have none. Nothing else of
the text changes. -/
def parent? (path : String) : Option String :=
  match components path with
  | [] | [.root] => none
  | _ =>
    match pieces path with
    | [] => none
    | first :: rest =>
      let rest := dropIdle rest
      if rest.isEmpty then some ""
      else
        match dropIdle rest.dropLast with
        | [] => some (if first = "" then "/" else first)
        | inner => some (String.intercalate "/" (first :: inner))

def join (directory name : String) : String :=
  if directory = "" ∨ directory.toList.getLast? = some '/' then directory ++ name
  else directory ++ "/" ++ name

/-- A path and the directories above it, innermost first, without the empty path. At most as many
as there are components. -/
def ancestorsWithin : Nat → String → List String
  | 0, _ => []
  | n + 1, path =>
    if path = "" then []
    else
      match parent? path with
      | some parent => path :: ancestorsWithin n parent
      | none => [path]

/-- A path and the directories above it, innermost first. -/
def ancestors (path : String) : List String := ancestorsWithin (path.length + 1) path

end PlatformLink.Path
