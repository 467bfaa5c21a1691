/-! # Diagnostics and log records

What a run says besides its result: problems of single methods, which do not stop it, and log
records.
-/

namespace PlatformLink
set_option autoImplicit false

/-- A problem of one method. -/
structure Diagnostic where
  rule : String
  className : String
  methodName : String
  descriptor : String
  message : String
  deriving DecidableEq, Repr

/-- The weight of a log record. -/
inductive LogLevel where
  | error | warn | info | debug | trace
  deriving DecidableEq, Repr

/-- A log record. -/
structure LogRecord where
  level : LogLevel
  message : String
  deriving DecidableEq, Repr

/-- The name and description of a rule, as reports give them. -/
structure Rule where
  id : String
  name : String
  description : String
  deriving DecidableEq, Repr

end PlatformLink
