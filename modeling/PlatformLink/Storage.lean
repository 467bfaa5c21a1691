import PlatformLink.Content
import PlatformLink.Path

/-! # Storage

What a run asks of the place where files are: to see what stands at a path, to make a directory
in one that exists, and to store a file in a directory that exists. `createDirectories` makes a
directory with all that are missing above it.
-/

namespace PlatformLink
set_option autoImplicit false

/-- What came of making a directory. -/
inductive Making where
  | made
  /-- The directory above is missing. -/
  | missingParent
  /-- Something else stands in the way, be it the directory itself. -/
  | refused
  deriving DecidableEq, Repr

/-- A place where files are. -/
class Storage (m : Type → Type) where
  /-- What stands at a path. -/
  look : String → m Snapshot
  /-- Makes one directory. -/
  makeDirectory : String → m Making
  /-- Whether a directory stands at a path. -/
  isDirectory : String → m Bool
  /-- Stores a file under a path, whatever it held before; whether that was possible. -/
  store : String → Content → m Bool

namespace Storage

variable {m : Type → Type} [Monad m] [Storage m]

/-- Makes the first of some directories, each in the next, and those further out that are
missing; whether it stands there in the end. -/
def createInnermost : List String → m Bool
  | [] => return true
  | path :: outer => do
    match ← makeDirectory path with
    | .made => return true
    | .refused => isDirectory path
    | .missingParent =>
      if ← createInnermost outer then
        match ← makeDirectory path with
        | .made => return true
        | _ => isDirectory path
      else return false

/-- Makes a directory and those above it that are missing. -/
def createDirectories (path : String) : m Bool := createInnermost (Path.ancestors path)

end Storage

end PlatformLink
