import ChainCompiler.Program.Basic
import ChainCompiler.Script.Basic

/-! What lowering knows and keeps while it goes through a program: the declared names, the classes and tools met so
far, and the warnings given. A failure keeps all of it. -/

namespace ChainCompiler

/-- Something doubtful that does not stop compilation, with the line of its statement. -/
inductive Warning where
  | repeated (line : Nat) (name : String)
  | undeclared (line : Nat) (name : String)
  | undeclaredTool (line : Nat) (name : String)
  deriving DecidableEq, Repr

namespace Warning

def line : Warning → Nat
  | .repeated line _ => line
  | .undeclared line _ => line
  | .undeclaredTool line _ => line

def message : Warning → String
  | .repeated _ name => "'" ++ name ++ "' is declared more than once"
  | .undeclared _ name => "'" ++ name ++ "' is referenced but never declared"
  | .undeclaredTool _ name => "tool '" ++ name ++ "' is not declared"

end Warning

/-- Why a construct has no lowering. What was found in its place is given as messages call it. -/
inductive Cause where
  | notAStep (found : String)
  | notATarget (found : String)
  | unknownContext (name : String)
  | unknownCall (name : String)
  | unknownModifier (name : String)
  | unknownArgument (name call : String)
  | noTools
  | toolsNotList (found : String)
  | toolNotName (found : String)
  | noSchema
  | schemaNotName (found : String)
  | noToolName
  | noHandler
  | noTemplate
  | noKind
  | kindNotName (found : String)
  | repeatedField (name : String)
  deriving DecidableEq, Repr

def Cause.message : Cause → String
  | .notAStep found => found ++ " cannot be used as a pipeline step"
  | .notATarget found => "cannot attach modifiers to " ++ found
  | .unknownContext name => "unknown chain context '" ++ name ++ "'"
  | .unknownCall name => "unknown call target '" ++ name ++ "'"
  | .unknownModifier name => "unknown modifier '" ++ name ++ "'"
  | .unknownArgument name call => "unknown argument '" ++ name ++ "' for '" ++ call ++ "'"
  | .noTools => "bind requires a 'tools' argument"
  | .toolsNotList found => "bind expects a list of tools, found " ++ found
  | .toolNotName found => "tool entries must be names, found " ++ found
  | .noSchema => "output requires a 'schema' argument"
  | .schemaNotName found => "output expects a schema name, found " ++ found
  | .noToolName => "Tool requires a 'name' argument"
  | .noHandler => "Tool requires a 'handler' (or 'func') argument"
  | .noTemplate => "Prompt requires a template"
  | .noKind => "Builtin requires a 'kind' (or 'type') argument"
  | .kindNotName found => "Builtin kind must be a name or string, found " ++ found
  | .repeatedField name => "duplicate field '" ++ name ++ "'"

structure Scope where
  /-- The names of all statements of the program. -/
  declared : List String
  /-- The classes met so far, in increasing order. -/
  classes : List String
  /-- The tools bound so far, in the order of their first binding. -/
  tools : List String
  /-- The number of routers met so far. -/
  routers : Nat
  warnings : List Warning
  /-- The name of the statement being lowered. -/
  owner : String
  /-- The line of the statement being lowered. -/
  line : Nat
  deriving Repr

def insertSorted (s : String) : List String → List String
  | [] => [s]
  | t :: ts => if s < t then s :: t :: ts else if s = t then t :: ts else t :: insertSorted s ts

/-- A step of lowering. What it did to the scope stays done when it fails. -/
abbrev Lower := ExceptT Cause (StateM Scope)

namespace Lower

def fail {α : Type} (cause : Cause) : Lower α := throw cause

def warn (w : Warning) : Lower Unit := modify fun s => { s with warnings := s.warnings ++ [w] }

/-- Notes a class for the import line. -/
def need (className : String) : Lower Unit :=
  modify fun s => { s with classes := insertSorted className s.classes }

/-- The names that stand for a new component whenever they are mentioned. -/
def isEndpoint (name : String) : Bool := name == "Input" || name == "StringOutput"

/-- A name where a value is used. A checked name ought to be declared. -/
def reference (name : String) (checked : Bool) : Lower Script.Expr := do
  if isEndpoint name then
    need name
    return .new name []
  else
    let s ← get
    if checked && !s.declared.contains name then warn (.undeclared s.line name)
    return .ident name

def registerTool (name : String) : Lower Unit := do
  let s ← get
  unless s.declared.contains name do warn (.undeclaredTool s.line name)
  unless s.tools.contains name do modify fun s => { s with tools := s.tools ++ [name] }

def routerLabel : Lower String := do
  modify fun s => { s with routers := s.routers + 1 }
  let s ← get
  return s.owner ++ "_r" ++ s.routers.repr

end Lower

/-- An argument with the step that lowers its value. Which of a call's arguments are lowered, and in which order, is
for the component to say. -/
structure Operand where
  name : Option String
  source : Expr
  value : Lower Script.Expr

namespace Operand

def find? (ops : List Operand) (name : String) : Option Operand :=
  ops.find? fun o => o.name == some name

def findAny? (ops : List Operand) (names : List String) : Option Operand :=
  names.findSome? (find? ops)

def sole? : List Operand → Option Operand
  | [o] => if o.name.isNone then some o else none
  | _ => none

def unknown? (ops : List Operand) (allowed : List String) : Option String :=
  (ops.filterMap (·.name)).find? fun n => !allowed.contains n

def rejectUnknown (call : String) (ops : List Operand) (allowed : List String) : Lower Unit :=
  match unknown? ops allowed with
  | some n => Lower.fail (.unknownArgument n call)
  | none => return ()

def fields (skip : List String) : List Operand → Lower (List (String × Script.Expr))
  | [] => return []
  | o :: ops => do
    match o.name with
    | none => fields skip ops
    | some n =>
      if skip.contains n then fields skip ops
      else
        let v ← o.value
        return (n, v) :: (← fields skip ops)

/-- The only argument if it has no name, else an object of the named ones. -/
def config (ops : List Operand) : Lower Script.Expr := do
  match sole? ops with
  | some o => o.value
  | none => return .object (← fields [] ops)

end Operand

end ChainCompiler
