import ChainCompiler.Text.Quoted

/-! Diagnostics: what a failure reports to people, as one line of text, and to programs, as one line of JSON. -/

namespace ChainCompiler

inductive Stage where
  | lex
  | parse
  | codegen
  | config
  deriving DecidableEq, Repr, Inhabited

def Stage.name : Stage → String
  | .lex => "lex"
  | .parse => "parse"
  | .codegen => "codegen"
  | .config => "config"

structure Diagnostic where
  stage : Stage
  message : String
  line : Option Nat
  column : Option Nat
  deriving DecidableEq, Repr, Inhabited

namespace Diagnostic

/-- Where the failure is; a column says nothing without its line. -/
def place (d : Diagnostic) : String :=
  match d.line, d.column with
  | none, _ => ""
  | some line, none => " at line " ++ line.repr
  | some line, some column => " at line " ++ line.repr ++ ", column " ++ column.repr

def text (d : Diagnostic) : String :=
  d.stage.name ++ " error" ++ d.place ++ ": " ++ d.message

end Diagnostic

inductive JsonValue where
  | text (s : String)
  | number (n : Nat)
  | bool (b : Bool)
  deriving DecidableEq, Repr

def JsonValue.render : JsonValue → String
  | .text s => Text.quote s
  | .number n => n.repr
  | .bool b => if b then "true" else "false"

/-- An object on one line, without blanks, its members in the given order. -/
def jsonLine (members : List (String × JsonValue)) : String :=
  "\x7b" ++ ",".intercalate (members.map fun m => Text.quote m.1 ++ ":" ++ m.2.render) ++ "\x7d"

def optionalMember (key : String) (n : Option Nat) : List (String × JsonValue) :=
  match n with
  | none => []
  | some n => [(key, .number n)]

def Diagnostic.json (d : Diagnostic) : String :=
  jsonLine ([("stage", .text d.stage.name), ("message", .text d.message)] ++
    optionalMember "line" d.line ++ optionalMember "column" d.column)

end ChainCompiler
