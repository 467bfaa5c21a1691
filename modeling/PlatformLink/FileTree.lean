import PlatformLink.Storage

/-! # File trees

A tree of directories and files below a working directory, as a storage without side effects.
Every node is kept under its location, the names that lead to it. Paths are walked name by name:
a `.` stays, a `..` goes up, and a path that goes above the working directory leads nowhere. A path
that starts at the root starts there too, as in a process that works at the root of its files.
-/

namespace PlatformLink
set_option autoImplicit false

/-- The names that lead from the working directory to a node. -/
abbrev Location := List String

/-- A directory or a file. -/
inductive Node where
  | directory
  | file (content : Content)
  deriving DecidableEq, Repr

/-- The nodes of a tree under their locations. The working directory has no node of its own. -/
structure FileTree where
  nodes : List (Location × Node)
  deriving DecidableEq, Repr

namespace FileTree

def empty : FileTree := ⟨[]⟩

def find? (t : FileTree) (l : Location) : Option Node :=
  if l.isEmpty then some .directory else t.nodes.lookup l

def put (t : FileTree) (l : Location) (n : Node) : FileTree :=
  ⟨(l, n) :: t.nodes.filter fun entry => entry.1 != l⟩

/-! ## Walking -/

/-- Why a path leads nowhere. -/
inductive Obstacle where
  /-- A directory on the way is missing. -/
  | missing
  /-- A file stands on the way, or the path is none that could lead anywhere. -/
  | blocked
  deriving DecidableEq, Repr

/-- The longest name and the longest path, in octets. -/
def maxName : Nat := 255
def maxPath : Nat := 4095

/-- The location that some texts between slashes lead to. Whatever comes before one of them must
be a directory. -/
def descend (t : FileTree) : Location → List String → Except Obstacle Location
  | l, [] => .ok l
  | l, piece :: rest =>
    match t.find? l with
    | none => .error .missing
    | some (.file _) => .error .blocked
    | some .directory =>
      if Path.isIdle piece then descend t l rest
      else if piece = ".." then
        if l.isEmpty then .error .blocked else descend t l.dropLast rest
      else if maxName < piece.utf8ByteSize then .error .blocked
      else descend t (l ++ [piece]) rest

/-- The texts between the slashes of a path that could lead somewhere. -/
def piecesOf (path : String) : Except Obstacle (List String) :=
  if path = "" then .error .missing
  else if path.toList.contains '\x00' ∨ maxPath < path.utf8ByteSize then .error .blocked
  else .ok (Path.pieces path)

def at? (t : FileTree) (path : String) : Option (Location × Node) :=
  match piecesOf path with
  | .ok pieces =>
    match t.descend [] pieces with
    | .ok l => (t.find? l).map fun n => (l, n)
    | .error _ => none
  | .error _ => none

/-- The files below a location, under the names that lead there from it. -/
def filesBelow (t : FileTree) (l : Location) : List (List String × Content) :=
  t.nodes.filterMap fun entry =>
    match entry.2 with
    | .file content => if l.isPrefixOf entry.1 then some (entry.1.drop l.length, content) else none
    | .directory => none

/-! ## Operations -/

def look (t : FileTree) (path : String) : Snapshot :=
  match t.at? path with
  | some (_, .file content) => .file content
  | some (l, .directory) => .directory (t.filesBelow l)
  | none => .missing

/-- Whether a directory stands at a path. -/
def isDirectory (t : FileTree) (path : String) : Bool :=
  (t.at? path).map Prod.snd == some .directory

/-- The location of a new node under a path, which lies in a directory and ends in a name. -/
def newLocation (t : FileTree) (pieces : List String) : Except Obstacle Location := do
  match pieces.getLast? with
  | none => .error .blocked
  | some name =>
    let l ← t.descend [] pieces.dropLast
    match t.find? l with
    | none => .error .missing
    | some (.file _) => .error .blocked
    | some .directory =>
      if Path.isIdle name ∨ name = ".." ∨ maxName < name.utf8ByteSize then .error .blocked
      else .ok (l ++ [name])

/-- Texts between slashes without the empty ones at their end. -/
def dropEmpty (pieces : List String) : List String :=
  (pieces.reverse.dropWhile (· == "")).reverse

def makeDirectory (t : FileTree) (path : String) : Making × FileTree :=
  match piecesOf path >>= fun pieces => t.newLocation (dropEmpty pieces) with
  | .error .missing => (.missingParent, t)
  | .error .blocked => (.refused, t)
  | .ok l =>
    match t.find? l with
    | some _ => (.refused, t)
    | none => (.made, t.put l .directory)

def store (t : FileTree) (path : String) (content : Content) : Bool × FileTree :=
  match piecesOf path >>= t.newLocation with
  | .error _ => (false, t)
  | .ok l =>
    match t.find? l with
    | some .directory => (false, t)
    | _ => (true, t.put l (.file content))

instance : Storage (StateM FileTree) where
  look path := fun t => (t.look path, t)
  makeDirectory path := fun t => t.makeDirectory path
  isDirectory path := fun t => (t.isDirectory path, t)
  store path content := fun t => t.store path content

end FileTree

end PlatformLink
