import PlatformLink.Run

/-! # The program

Reads the command line, runs on the files of the working directory, prints what the run has to
say, and ends with exit code 0 for success, 1 for a run that stopped, and 2 for a command line
that asks for no run.
-/

namespace PlatformLink.Program
set_option autoImplicit false

/-! ## Files on disk -/

def readFile (path : String) : IO Content := do
  let octets ← IO.FS.readBinFile path
  return .raw octets.data.toList

/-- The files below a directory under the names that lead there from it. -/
partial def filesBelow (path : String) (names : List String) : IO (List (List String × Content)) := do
  let here ← IO.currentDir
  let mut found := []
  for child in ← (here / path).readDir do
    let names := names ++ [child.fileName]
    let childPath := Path.join path child.fileName
    if ← child.path.isDir then found := found ++ (← filesBelow childPath names)
    else found := found ++ [(names, ← readFile childPath)]
  return found

def look (path : String) : IO Snapshot := do
  let there := (← IO.currentDir) / path
  if ← there.isDir then return .directory (← filesBelow path [])
  else if ← there.pathExists then return .file (← readFile path)
  else return .missing

def makeDirectory (path : String) : IO Making := do
  try
    IO.FS.createDir path
    return .made
  catch
    | .noFileOrDirectory _ _ _ => return .missingParent
    | _ => return .refused

def store (path : String) (content : Content) : IO Bool := do
  try
    IO.FS.writeBinFile path (ByteArray.mk content.octets.toArray)
    return true
  catch _ => return false

instance : Storage IO where
  look := look
  makeDirectory := makeDirectory
  isDirectory path := do ((← IO.currentDir) / path).isDir
  store := store

/-! ## Talking -/

def usageText : Usage → String
  | .missingRequired => "error: --input and --output are required"
  | .unknownArgument => "error: unexpected argument"
  | .invalidValue => "error: a value is required"
  | .repeated => "error: an argument cannot be used multiple times"
  | .unexpectedValue => "error: unexpected value"
  | .help =>
    "Rewrites @ExpectPlatform methods in JVM classes and JAR files for one platform.\n\n" ++
      "Usage: platformer --input <PATH> --output <PATH> [--properties <PATH>] " ++
      "[--platform-name <NAME>] [--platform-package <PACKAGE>] [--unique-identifier <ID>] " ++
      "[--report <PATH>] [--quiet] [--timing]"
  | .version => "platformer 0.1.0"

/-- Whether a usage text is the answer that was asked for. -/
def isAnswer : Usage → Bool
  | .help | .version => true
  | _ => false

/-- Runs with some arguments, and prints the outcome. -/
def runWith (a : Arguments) (commandLine : List String) : IO UInt32 := do
  let started ← IO.monoMsNow
  let (result, log) ← Run.perform a commandLine
  for record in log do
    if record.level = .error then IO.eprintln s!"[ERROR] {record.message}"
  match result with
  | .error e =>
    IO.eprintln s!"Error: {e.message}"
    return 1
  | .ok summary =>
    if let some text := summary.printed then IO.print text
    if a.timing && !a.quiet then
      let elapsed := (← IO.monoMsNow) - started
      IO.eprintln s!"timing: total_ms={elapsed} classes={summary.classCount} rewritten={summary.rewrittenCount}"
    return 0

end PlatformLink.Program

open PlatformLink in
def main (arguments : List String) : IO UInt32 := do
  match CommandLine.parse arguments with
  | .ok a => Program.runWith a ((← IO.appPath).toString :: arguments)
  | .error usage =>
    if Program.isAnswer usage then
      IO.println (Program.usageText usage)
      return 0
    else
      IO.eprintln (Program.usageText usage)
      return 2
