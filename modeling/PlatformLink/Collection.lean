import PlatformLink.Archive.EntryName
import PlatformLink.ClassFile.Reading
import PlatformLink.Content
import PlatformLink.RunError

/-! # Collecting the input

The input is a directory, an archive or a single class file. `Entry.collect` gives its files as
entries: those of a directory in the order of their names, level by level; those of an archive by
their whole names, after a check that each is safe; a class file under the name of its class.
`manifestFirst` then brings the manifest to the front, where readers of archives look for it.
-/

namespace PlatformLink
set_option autoImplicit false

def manifestPath : String := "META-INF/MANIFEST.MF"

/-- Whether the names that lead to one file come before, or are, those that lead to another. -/
def namesLe : List String → List String → Bool
  | [], _ => true
  | _ :: _, [] => false
  | a :: as, b :: bs => if a = b then namesLe as bs else decide (a < b)

namespace Entry

/-- Whether an entry is a class to be rewritten. -/
def isClass (e : Entry) : Bool :=
  e.path.endsWith ".class" && !e.path.endsWith "module-info.class"

def ofDirectory (files : List (List String × Content)) : List Entry :=
  (files.mergeSort fun a b => namesLe a.1 b.1).map fun f => ⟨"/".intercalate f.1, f.2⟩

/-- Lets a member of the archive at the path `input` pass if it can be opened and its name is
safe, or that of a directory. -/
def checkMember (input : String) (m : Archive.Member) : Except RunError Unit :=
  if m.data = .refused then .error ⟨[s!"failed to read {input}"], .archive⟩
  else if EntryName.isDirectory m.name || EntryName.isSafe m.name then .ok ()
  else .error ⟨[], .other s!"unsafe entry path {input}:{m.name}"⟩

/-- The entry of a file in the archive at the path `input`. -/
def ofMember (input : String) (m : Archive.Member) : Except RunError Entry :=
  match m.data with
  | .intact octets => .ok ⟨m.name, .raw octets⟩
  | _ => .error ⟨[s!"failed to read {input}:{m.name}"], .file none⟩

/-- The files of an archive as entries, once every member has passed. -/
def ofArchive (input : String) (members : List Archive.Member) : Except RunError (List Entry) := do
  members.forM (checkMember input)
  let files := members.filter fun m => !EntryName.isDirectory m.name
  (files.mergeSort fun a b => decide (a.name ≤ b.name)).mapM (ofMember input)

/-- A class file as an entry under the name of its class. -/
def ofClassFile (input : String) (content : Content) : Except RunError (List Entry) := do
  let c ← classInContext s!"failed to parse {input}" (ClassFile.read content.octets)
  return [⟨c.name ++ ".class", content⟩]

/-- The entries of what stands at the path `input`. -/
def collect (input : String) : Snapshot → Except RunError (List Entry)
  | .missing => .error ⟨[], .other s!"input not found: {input}"⟩
  | .directory files => .ok (ofDirectory files)
  | .file content =>
    if isArchivePath input then
      match content.members? with
      | some members => ofArchive input members
      | none => .error ⟨[s!"failed to read {input}"], .archive⟩
    else if Path.extension? input = some "class" then ofClassFile input content
    else .error ⟨[], .other s!"unsupported input file: {input}"⟩

/-- Entries with the manifest in front and the others in their order. -/
def manifestFirst (entries : List Entry) : List Entry :=
  entries.filter (·.path == manifestPath) ++ entries.filter (·.path != manifestPath)

end Entry

end PlatformLink
