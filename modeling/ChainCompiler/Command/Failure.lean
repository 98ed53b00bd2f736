import ChainCompiler.Files.Sources
import ChainCompiler.Project

/-! Why a command fails, and the report of it: a message, and the causes below it. -/

namespace ChainCompiler.Command

inductive LoadError where
  | missing (path : Path)
  | unreadable (e : ReadError)
  | invalid (e : ConfigError)
  deriving DecidableEq, Repr

def LoadError.causes : LoadError → List String
  | .missing path => ["configuration file not found: " ++ path.text]
  | .unreadable e => ["IO error: " ++ e.text, e.text]
  | .invalid e => e.causes

inductive Failure where
  | configuration (e : LoadError)
  | noSources (directory : Path)
  | unsearchable (directory path : Path) (e : SystemError)
  | unreadable (path : Path) (e : ReadError)
  | notCompiled (path : Path)
  | someNotCompiled (failed total : Nat)
  | someWithErrors (failed total : Nat)
  | notCreated (path : Path) (e : SystemError)
  | notWritten (path : Path) (e : SystemError)
  | initialized (path : Path)
  | nameless
  | system (e : SystemError)
  deriving DecidableEq, Repr

namespace Failure

def ofSearch (directory : Path) : SearchError → Failure
  | .noDirectory => .noSources directory
  | .unopened path e => .unsearchable directory path e

def message : Failure → String
  | .configuration _ => "Failed to load configuration"
  | .noSources directory => "Sources directory not found: " ++ directory.text
  | .unsearchable directory _ _ => "Failed to read " ++ directory.text
  | .unreadable path _ => "Failed to read " ++ path.text
  | .notCompiled path => "Compilation failed: " ++ path.text
  | .someNotCompiled failed total =>
    failed.repr ++ " of " ++ total.repr ++ " files failed to compile; nothing was written"
  | .someWithErrors failed total => failed.repr ++ " of " ++ total.repr ++ " files have errors"
  | .notCreated path _ => "Failed to create " ++ path.text
  | .notWritten path _ => "Failed to write " ++ path.text
  | .initialized path => "Directory '" ++ path.text ++ "' already contains a " ++ Project.fileName
  | .nameless => "Could not determine project name from path"
  | .system e => e.text

def causes : Failure → List String
  | .configuration e => e.causes
  | .unsearchable _ path e => ["IO error for operation on " ++ path.text ++ ": " ++ e.text, e.text]
  | .unreadable _ e => [e.text]
  | .notCreated _ e => [e.text]
  | .notWritten _ e => [e.text]
  | _ => []

def indented (blanks : String) (text : String) : String :=
  String.ofList (text.toList.flatMap fun c => if c = '\n' then '\n' :: blanks.toList else [c])

def numbered : Nat → List String → String
  | _, [] => ""
  | n, c :: cs => "\n    " ++ n.repr ++ ": " ++ indented "       " c ++ numbered (n + 1) cs

def causesText : List String → String
  | [] => ""
  | [c] => "\n\nCaused by:\n    " ++ indented "    " c
  | cs => "\n\nCaused by:" ++ numbered 0 cs

def report (f : Failure) : String := "Error: " ++ f.message ++ causesText f.causes ++ "\n"

end Failure

end ChainCompiler.Command
