import NodeRules.Compile
import NodeRules.Disk

namespace NodeRules

structure Options where
  input : String
  output : String
  licenseFile : Option String
  settings : Settings
deriving DecidableEq

inductive CommandError
  | noParameters
  | unknownOption (argument : String)
  | extraArgument (argument : String)
  | read (path : String) (fault : FileFault)
  | write (path : String) (fault : FileFault)
  | compile (error : CompileError)
deriving DecidableEq

def CommandError.message : CommandError → String
  | noParameters => "Parameters are not specified"
  | unknownOption argument => "unknown option `" ++ argument ++ "`"
  | extraArgument argument => "more than one rules file: `" ++ argument ++ "`"
  | read path fault => "cannot read `" ++ path ++ "`: " ++ fault.message
  | write path fault => "cannot write `" ++ path ++ "`: " ++ fault.message
  | compile e => e.message

inductive Argument
  | output (value : String)
  | package (value : String)
  | core (value : String)
  | license (value : String)
  | version (value : String)
  | unknown
  | plain

namespace Argument

def after? : (start text : List Char) → Option (List Char)
  | [], text => some text
  | _ :: _, [] => none
  | s :: start, c :: text => if s = c then after? start text else none

/-- The options that take a value, with what is written in front of the value. -/
def valued : List (String × (String → Argument)) :=
  [("--output=", output), ("--package=", package), ("--core=", core), ("--license=", license),
    ("--version=", version)]

def ofString (s : String) : Argument :=
  match valued.findSome? fun (start, make) =>
      (after? start.toList s.toList).map fun value => make (String.ofList value) with
  | some a => a
  | none => if s.toList.head? = some '-' then unknown else plain

end Argument

namespace Options

def initial (input : String) : Options :=
  ⟨input, "output", none, { filePath := input }⟩

/-- Takes the arguments that are left. There is no rules file yet while `input` is `none`. -/
def takeAll (input : Option String) (o : Options) :
    List String → Except CommandError (Option String × Options)
  | [] => .ok (input, o)
  | a :: as =>
    match Argument.ofString a with
    | .output value => takeAll input { o with output := value } as
    | .package value =>
      takeAll input { o with settings := { o.settings with rootPackage := value } } as
    | .core value =>
      takeAll input { o with settings := { o.settings with corePackage := value } } as
    | .license value => takeAll input { o with licenseFile := some value } as
    | .version value => takeAll input { o with settings := { o.settings with version := value } } as
    | .unknown => .error (.unknownOption a)
    | .plain => if input.isSome then .error (.extraArgument a) else takeAll (some a) o as

/-- The options that a list of arguments asks for. Of several values for one option the last
counts. -/
def ofArguments (as : List String) : Except CommandError Options := do
  let (input, o) ← takeAll none (initial "") as
  match input with
  | none => throw .noParameters
  | some input => return { o with input, settings := { o.settings with filePath := input } }

end Options

section Run

variable {m : Type → Type} [Monad m]

def writeFiles (files : FileAccess m) (output : String) :
    List OutputFile → m (Except CommandError Unit)
  | [] => pure (.ok ())
  | f :: fs => do
    let path := Path.join output f.path
    match ← files.write path f.content with
    | .error fault => pure (.error (.write path fault))
    | .ok () => writeFiles files output fs

def readSettings (files : FileAccess m) (o : Options) : m (Except CommandError Settings) :=
  match o.licenseFile with
  | none => pure (.ok o.settings)
  | some path => do
    match ← files.read path with
    | .error fault => pure (.error (.read path fault))
    | .ok license => pure (.ok { o.settings with license })

def run (files : FileAccess m) (o : Options) : m (Except CommandError Nat) := do
  match ← files.read o.input with
  | .error fault => pure (.error (.read o.input fault))
  | .ok source =>
    match ← readSettings files o with
    | .error e => pure (.error e)
    | .ok settings =>
      match compile source settings with
      | .error e => pure (.error (.compile e))
      | .ok output =>
        match ← writeFiles files o.output output.files with
        | .error e => pure (.error e)
        | .ok () => pure (.ok output.files.length)

end Run

end NodeRules
