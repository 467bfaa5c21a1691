import PlatformLink.ClassFile

/-! # Markers

The annotations that ask for a method to be forwarded to the implementation for one platform, and
the one that says it has been done. One marker is looked for among the visible annotations, the
others among the invisible ones.
-/

namespace PlatformLink
set_option autoImplicit false

/-- An annotation that asks for a method to be forwarded. -/
inductive Marker where
  /-- The first form, a visible annotation. -/
  | legacy
  /-- The form in use, an invisible annotation. -/
  | current
  /-- A second early form, an invisible annotation. -/
  | legacyPlatformOnly
  deriving DecidableEq, Repr

namespace Marker

def descriptor : Marker → String
  | .legacy => "Lme/shedaniel/architectury/ExpectPlatform;"
  | .current => "Ldev/architectury/annotations/ExpectPlatform;"
  | .legacyPlatformOnly => "Lme/shedaniel/architectury/PlatformOnly;"

def label : Marker → String
  | .legacy => "Legacy"
  | .current => "Current"
  | .legacyPlatformOnly => "LegacyPlatformOnly"

/-- The type of the annotation on a method that has been forwarded. -/
def done : String := "Ldev/architectury/annotations/ExpectPlatform$Transformed;"

end Marker

namespace Method

/-- Whether a method has a marker in the list where it is looked for. -/
def hasMarker (m : Method) : Marker → Bool
  | .legacy => mentions m.visible Marker.legacy.descriptor
  | marker => mentions m.invisible marker.descriptor

/-- The marker of a method; of several the first in the order of `Marker`. -/
def marker? (m : Method) : Option Marker :=
  [Marker.legacy, .current, .legacyPlatformOnly].find? m.hasMarker

/-- Whether a method has been forwarded. -/
def isForwarded (m : Method) : Bool := mentions m.invisible Marker.done

end Method

end PlatformLink
