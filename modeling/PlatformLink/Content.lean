import PlatformLink.Archive.Reading
import PlatformLink.Path

/-! # Contents of files

A file is seen as its octets, or, when it is an archive, as its list of entries. Its path says
whether it is looked at as an archive (`isArchivePath`).
-/

namespace PlatformLink
set_option autoImplicit false

/-- What a file holds. -/
inductive Content where
  | raw (octets : Bytes)
  | archive (items : List Archive.Item)
  deriving DecidableEq, Repr

def Content.octets : Content → Bytes
  | .raw octets => octets
  | .archive items => Archive.encode items

/-- Whether a path has one of the extensions of archives. -/
def isArchivePath (path : String) : Bool :=
  Path.extension? path == some "jar" || Path.extension? path == some "zip"

def Content.members? : Content → Option (List Archive.Member)
  | .archive items => some (items.map .ofItem)
  | .raw octets => Archive.members? octets

/-- The entries of a file that is an archive, when all of them can be read. -/
def Content.items? (content : Content) : Option (List Archive.Item) :=
  content.members?.bind fun members => members.mapM Archive.Member.item?

/-- A file or an entry of an archive, under its path with `/` between the components. -/
structure Entry where
  path : String
  content : Content
  deriving DecidableEq, Repr

/-- What stands at a path. -/
inductive Snapshot where
  | missing
  | file (content : Content)
  /-- A directory, with all files below it under the names that lead there. -/
  | directory (files : List (List String × Content))
  deriving DecidableEq, Repr

end PlatformLink
