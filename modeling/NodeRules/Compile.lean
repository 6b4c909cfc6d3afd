import NodeRules.Java.Generate
import NodeRules.Program.Reader

namespace NodeRules

structure Settings where
  /-- The name of the rules file, for messages only. -/
  filePath : String := "rules.dsl"
  license : String := "The MIT License (MIT)"
  version : String := "1.0.0"
  rootPackage : String := "org.cqfn.astranaut.tree"
  corePackage : String := "org.cqfn.astranaut.core"
deriving DecidableEq

def Settings.target (s : Settings) : Java.Target :=
  ⟨.ofText s.license, s.version, s.rootPackage, s.corePackage⟩

inductive CompileError
  | read (error : ReadError)
  | scope (error : ScopeError)
  | generate (error : Java.GenerateError)
deriving DecidableEq

namespace CompileError

def message : CompileError → String
  | read e => e.message
  | scope e => e.message
  | generate e => e.message

def diagnostic : CompileError → Diagnostic
  | read e => e.diagnostic
  | scope e => e.diagnostic
  | generate e => e.diagnostic

end CompileError

structure OutputFile where
  path : String
  content : String
deriving DecidableEq

structure Output where
  languages : List String
  files : List OutputFile
deriving DecidableEq

def OutputFile.ofSource (f : Java.SourceFile) : OutputFile := ⟨f.path, f.render⟩

/-- The files of all languages of a program, language after language. All scopes are checked before
any file is made. -/
def Program.generate (p : Program) (target : Java.Target) : Except CompileError Output := do
  let languages := p.languages.1
  let scopes ← (languages.mapM (Scope.ofProgram p)).mapError .scope
  let files ← (scopes.mapM fun scope => Java.generateAll target scope p).mapError .generate
  return ⟨languages, files.flatten.map .ofSource⟩

def compile (source : String) (settings : Settings) : Except CompileError Output := do
  let p ← (Program.ofText source).mapError .read
  p.generate settings.target

end NodeRules
