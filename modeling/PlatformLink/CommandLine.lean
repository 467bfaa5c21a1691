/-! # The command line

Options take a value behind `=` or as the next argument, flags take none, and nothing else is
allowed. An option is complete when the next option or flag begins or the arguments end; only
then is it checked. `CommandLine.parse` gives the arguments of a run or the reason why there are
none.
-/

namespace PlatformLink
set_option autoImplicit false

/-- The arguments of a run. -/
structure Arguments where
  input : String
  output : String
  properties : Option String
  platformName : Option String
  platformPackage : Option String
  uniqueIdentifier : Option String
  report : Option String
  quiet : Bool
  timing : Bool
  deriving DecidableEq, Repr

/-- Why there are no arguments. -/
inductive Usage where
  | missingRequired
  | unknownArgument
  /-- A value is missing, or a path is empty. -/
  | invalidValue
  /-- An option or flag is given twice. -/
  | repeated
  /-- A flag has a value. -/
  | unexpectedValue
  | help
  | version
  deriving DecidableEq, Repr

namespace CommandLine

/-- The options with a value. -/
inductive Opt where
  | input | output | properties | platformName | platformPackage | uniqueIdentifier | report
  deriving DecidableEq, Repr

/-- The flags. -/
inductive Flag where
  | quiet | timing | help | version
  deriving DecidableEq, Repr

def ofName? : String → Option (Opt ⊕ Flag)
  | "input" => some (.inl .input)
  | "output" => some (.inl .output)
  | "properties" => some (.inl .properties)
  | "platform-name" => some (.inl .platformName)
  | "platform-package" => some (.inl .platformPackage)
  | "unique-identifier" => some (.inl .uniqueIdentifier)
  | "report" => some (.inl .report)
  | "quiet" => some (.inr .quiet)
  | "timing" => some (.inr .timing)
  | "help" => some (.inr .help)
  | "version" => some (.inr .version)
  | _ => none

def ofLetter? : Char → Option Flag
  | 'h' => some .help
  | 'V' => some .version
  | _ => none

/-- Whether the value of an option is a path. -/
def Opt.isPath : Opt → Bool
  | .input | .output | .properties | .report => true
  | .platformName | .platformPackage | .uniqueIdentifier => false

/-- What has been read: complete options and flags, and the option that is not complete, with
its value if that has come. -/
structure Progress where
  values : List (Opt × String)
  flags : List Flag
  pending : Option (Opt × Option String)
  deriving DecidableEq, Repr

def Progress.start : Progress := ⟨[], [], none⟩

def Progress.add (p : Progress) (o : Opt) (value : String) : Except Usage Progress :=
  if p.values.any fun v => v.1 == o then .error .repeated
  else if o.isPath && value == "" then .error .invalidValue
  else .ok { p with values := p.values ++ [(o, value)] }

def Progress.complete (p : Progress) : Except Usage Progress :=
  match p.pending with
  | none => .ok p
  | some (_, none) => .error .invalidValue
  | some (o, some value) => { p with pending := none }.add o value

def Progress.flag (p : Progress) (f : Flag) : Except Usage Progress := do
  let p ← p.complete
  match f with
  | .help => throw .help
  | .version => throw .version
  | f => if p.flags.contains f then throw .repeated else return { p with flags := f :: p.flags }

/-- Takes an argument that starts with two dashes, which are gone. -/
def Progress.long (p : Progress) (text : List Char) : Except Usage Progress :=
  let name := String.ofList (text.takeWhile (· != '='))
  let value : Option String :=
    match text.dropWhile (· != '=') with
    | [] => none
    | _ :: value => some (String.ofList value)
  match ofName? name, value with
  | none, _ => .error .unknownArgument
  | some (.inl o), none => do
    let p ← p.complete
    return { p with pending := some (o, none) }
  | some (.inl o), some value => do
    let p ← p.complete
    p.add o value
  | some (.inr f), none => p.flag f
  | some (.inr _), some _ => .error .unexpectedValue

/-- Takes an argument that is neither a long nor a short one: the value of the pending option. -/
def Progress.value (p : Progress) (text : String) : Except Usage Progress :=
  match p.pending with
  | some (o, none) => .ok { p with pending := some (o, some text) }
  | _ => .error .unknownArgument

def Progress.step (p : Progress) (text : String) : Except Usage Progress :=
  match text.toList with
  | '-' :: '-' :: rest => p.long rest
  | '-' :: letter :: _ =>
    match ofLetter? letter with
    | some f => p.flag f
    | none => .error .unknownArgument
  | _ => p.value text

/-- Takes all arguments. Behind `--` there may be none. -/
def Progress.run (p : Progress) : List String → Except Usage Progress
  | [] => p.complete
  | "--" :: [] => p.complete
  | "--" :: _ :: _ => .error .unknownArgument
  | text :: rest => do
    let p ← p.step text
    p.run rest

def Progress.arguments (p : Progress) : Except Usage Arguments :=
  let value (o : Opt) : Option String := p.values.lookup o
  match value .input, value .output with
  | some input, some output =>
    .ok {
      input, output
      properties := value .properties
      platformName := value .platformName
      platformPackage := value .platformPackage
      uniqueIdentifier := value .uniqueIdentifier
      report := value .report
      quiet := p.flags.contains .quiet
      timing := p.flags.contains .timing }
  | _, _ => .error .missingRequired

def parse (arguments : List String) : Except Usage Arguments := do
  let p ← Progress.start.run arguments
  p.arguments

end CommandLine

end PlatformLink
