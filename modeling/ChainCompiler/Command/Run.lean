import ChainCompiler.Command.Check
import ChainCompiler.Command.Compile
import ChainCompiler.Command.Init

/-! The program as a function: from the files and the arguments to what it prints, its exit code, and the files
afterwards. -/

namespace ChainCompiler.Command

structure Outcome where
  exit : Nat
  output : String
  errors : String
  files : Files

def versionText : String := "linklang 0.1.0\n"

def usageText : String :=
"Usage: linklang [-c|--config PATH] [-v|--verbose] COMMAND

Commands:
  init [PATH] [-n|--name NAME]
  compile [SOURCE] [-o|--output PATH] [--debug] [--format text|json]
  check [SOURCE] [--format text|json]
"

def perform (i : Invocation) : Run Unit :=
  match i.action with
  | .init path name => Run.startProject ⟨path⟩ name
  | .compile (some source) output debug format =>
    Run.compileFile ⟨i.config⟩ ⟨source⟩ (output.map Path.mk) debug format
  | .compile none _ debug format => Run.compileProject ⟨i.config⟩ debug format
  | .check source format => Run.checkSources ⟨i.config⟩ (source.map Path.mk) format

def run (files : Files) (args : List String) : Outcome :=
  match readArguments args with
  | .error .version => ⟨0, versionText, "", files⟩
  | .error .help => ⟨0, usageText, "", files⟩
  | .error .refused => ⟨2, "", usageText, files⟩
  | .ok i =>
    match (perform i).run ⟨files, ""⟩ with
    | (.ok (), s) => ⟨0, s.output, "", s.files⟩
    | (.error f, s) => ⟨1, s.output, f.report, s.files⟩

end ChainCompiler.Command
