import PlatformLink.Collection
import PlatformLink.Storage

/-! # Writing the output

The output is an archive when its path says so, and a directory otherwise. Into a directory every
entry goes by the names in its path; a path that goes up or starts at the root is refused. An
archive takes no name twice, and none that is too long for its field in a header. The first entry
that fails ends the writing, and what was written before it stays.
-/

namespace PlatformLink.Output
set_option autoImplicit false

variable {m : Type → Type} [Monad m] [Storage m]

abbrev Written := Except RunError Unit

/-- The error of an entry that cannot be written. -/
def entryError (output path : String) (cause : Cause) : RunError :=
  ⟨[s!"failed to write {output}:{path}"], cause⟩

/-! ## Directories -/

/-- The names that lead to an entry inside a directory, unless its path leaves it. -/
def names? (path : String) : Option (List String) :=
  (Path.components path).foldr (fun component names =>
    match component, names with
    | .name text, some names => some (text :: names)
    | .current, names => names
    | _, _ => none) (some [])

/-- What is said of a path that leaves the directory. -/
def escapeMessage (root path : String) : String := s!"entry {path} escapes {root}"

/-- Writes an entry into the directory `root`. -/
def addToDirectory (root : String) (e : Entry) : m Written := do
  match names? e.path with
  | none => return .error (entryError root e.path (.file (some (escapeMessage root e.path))))
  | some names =>
    let target := names.foldl Path.join root
    let ready ← Storage.createDirectories ((Path.parent? target).getD "")
    if ready then
      if ← Storage.store target e.content then return .ok ()
      else return .error (entryError root e.path (.file none))
    else return .error (entryError root e.path (.file none))

/-- Writes entries into the directory `root`, up to the first that fails. -/
def addAll (root : String) : List Entry → m Written
  | [] => return .ok ()
  | e :: rest => do
    match ← addToDirectory root e with
    | .ok () => addAll root rest
    | .error e => return .error e

/-- Writes entries into a directory that is made if it is missing. -/
def toDirectory (root : String) (entries : List Entry) : m Written := do
  if ← Storage.createDirectories root then addAll root entries
  else return .error ⟨[s!"failed to create {root}"], .file none⟩

/-! ## Archives -/

/-- The greatest number of octets of a name in an archive. -/
def maxNameSize : Nat := 0xffff

/-- Whether an archive with some items takes an entry of this name. -/
def takes (items : List Archive.Item) (name : String) : Bool :=
  name.utf8ByteSize ≤ maxNameSize && !(items.any fun item => item.1 == name)

/-- The entries before the first that an archive does not take, after those already `done` in
reverse, and the name of that one. -/
def untilRefused (done : List Archive.Item) : List Entry → List Archive.Item × Option String
  | [] => (done.reverse, none)
  | e :: rest =>
    if takes done e.path then untilRefused ((e.path, e.content.octets) :: done) rest
    else (done.reverse, some e.path)

/-- Writes an archive with the entries before the first that it does not take. -/
def toArchive (path : String) (entries : List Entry) : m Written := do
  let parent := (Path.parent? path).getD ""
  if ← Storage.createDirectories parent then
    let (items, refused) := untilRefused [] entries
    if ← Storage.store path (.archive items) then
      match refused with
      | none => return .ok ()
      | some name => return .error (entryError path name .archive)
    else return .error ⟨[s!"failed to open {path}"], .file none⟩
  else return .error ⟨[s!"failed to create {parent}"], .file none⟩

def write (path : String) (entries : List Entry) : m Written :=
  if isArchivePath path then toArchive path entries else toDirectory path entries

end PlatformLink.Output
