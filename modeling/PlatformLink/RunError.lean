import PlatformLink.ClassError

/-! # Why a run stops

A run stops for a cause, told in the contexts it arose in, outermost first. Causes that lie in
the outside world have no words of their own here.
-/

namespace PlatformLink
set_option autoImplicit false

/-- Why a run stops. -/
inductive Cause where
  | classFile (error : ClassError)
  /-- A text is not JSON, or not of the right shape. -/
  | json
  /-- An archive cannot be read or written. -/
  | archive
  /-- An emitted class is refused by the second grammar. -/
  | acceptance
  /-- A file or directory cannot be read or written, with the words for it if it is refused
  here. -/
  | file (text : Option String)
  | other (text : String)
  deriving DecidableEq, Repr

/-- A cause in its contexts, outermost first. -/
structure RunError where
  contexts : List String
  cause : Cause
  deriving DecidableEq, Repr

def Cause.words : Cause → List String
  | .classFile error => [error.message]
  | .json | .archive | .acceptance => []
  | .file text => text.toList
  | .other text => [text]

/-- The sentence an error is reported with. -/
def RunError.message (e : RunError) : String := ": ".intercalate (e.contexts ++ e.cause.words)

/-- A result about a class file, with a context for its error. -/
def classInContext {α : Type} (context : String) (r : Except ClassError α) : Except RunError α :=
  r.mapError fun e => ⟨[context], .classFile e⟩

end PlatformLink
