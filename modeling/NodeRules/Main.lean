import NodeRules.CommandLine

namespace NodeRules.Command

def faultOfCode (code : UInt32) (text : String) : FileFault :=
  if code = 2 then .missing
  else if code = 17 then .fileInTheWay
  else if code = 20 then .notDirectory
  else if code = 21 then .isDirectory
  else if code = 36 then .nameTooLong
  else .other (text ++ " (os error " ++ toString code ++ ")")

def fault : IO.Error → FileFault
  | .alreadyExists _ code text | .invalidArgument _ code text | .permissionDenied _ code text
  | .resourceExhausted _ code text | .inappropriateType _ code text | .noSuchThing _ code text
  | .noFileOrDirectory _ code text | .interrupted _ code text | .otherError code text
  | .resourceBusy code text | .resourceVanished code text | .unsupportedOperation code text
  | .hardwareFault code text | .unsatisfiedConstraints code text | .illegalOperation code text
  | .protocolError code text | .timeExpired code text => faultOfCode code text
  | .unexpectedEof => .other "unexpected end of file"
  | .userError text => .other text

def attempt {α : Type} (action : IO α) : IO (Except FileFault α) := do
  match ← action.toBaseIO with
  | .ok a => return .ok a
  | .error e => return .error (fault e)

def readText (path : String) : IO (Except FileFault String) := do
  let bytes ← attempt do
    let handle ← IO.FS.Handle.mk path .read
    handle.readBinToEnd
  return bytes.bind textOf

/-- Makes a directory and, where they are missing, those above it. What is wrong with the whole path
is reported, unless it only misses a directory above. -/
def makeDirectories (path : String) : IO Unit := do
  match ← (IO.FS.createDir path).toBaseIO with
  | .ok () => return ()
  | .error e =>
    match ← (IO.FS.createDirAll path).toBaseIO with
    | .ok () => return ()
    | .error above => throw (if fault e = .missing then above else e)

def makeParent (path : String) : IO Unit := do
  let directory := Path.parent path
  unless directory == "" do makeDirectories directory

def files : FileAccess IO where
  read := readText
  write path content := attempt do
    makeParent path
    IO.FS.writeFile path content

def usage : List String :=
  ["Usage: astgenc <rules.dsl> [options]",
    "",
    "Options:",
    "  --output=<dir>      Output directory (default: output)",
    "  --package=<name>    Root package of generated classes",
    "  --core=<name>       Package of the runtime library",
    "  --license=<file>    File with the license header text",
    "  --version=<text>    Version for @since tags"]

def report : CommandError → List String
  | .compile e => [e.diagnostic.render]
  | .noParameters => ("error: " ++ CommandError.noParameters.message) :: usage
  | e => ["error: " ++ e.message]

def perform (arguments : List String) : IO (Except CommandError Nat) :=
  match Options.ofArguments arguments with
  | .error e => return .error e
  | .ok options => run files options

end NodeRules.Command

def main (arguments : List String) : IO UInt32 := do
  match ← NodeRules.Command.perform arguments with
  | .ok count =>
    IO.println (toString count ++ " file(s) generated")
    return 0
  | .error e =>
    (NodeRules.Command.report e).forM IO.eprintln
    return 1
