import ChainCompiler.Lowering.Expr
import ChainCompiler.Token.Keyword

/-! The lowering of statements and programs, statement by statement in source order. -/

namespace ChainCompiler

/-- A chain as the module's other sections need it: its name, and its memory configuration if it has one. -/
structure ChainEntry where
  name : String
  memory : Option Script.Expr
  deriving Repr, Inhabited

/-- What a statement contributes to the module. -/
structure Lowered where
  definitions : List Script.Stmt
  chain : Option ChainEntry
  deriving Repr, Inhabited

structure LoweringError where
  statement : Statement
  cause : Cause
  deriving Repr

def Statement.title (s : Statement) : String := s.keyword ++ " '" ++ s.name ++ "'"

namespace Lower

def enter (s : Statement) : Lower Unit :=
  modify fun scope => { scope with owner := s.name, line := s.line }

/-- Method calls on a name, each a statement, for one modifier after the other. -/
def attaching (name : String) : List Call → Lower (List Script.Stmt)
  | [] => return []
  | m :: ms => do
    let calls ← m.attachments
    return calls.map (fun a => .expr ((Script.Expr.ident name).method a.1 [a.2])) ++ (← attaching name ms)

/-- The definition of a name. Modifiers are attached to it once it is there, and a bare name is checked. -/
def definition (name : String) (value : Expr) : Lower (List Script.Stmt) :=
  match value with
  | .bind .. => do
    let (base, modifiers) := value.flatten
    let base ← base.lowerBase
    return .const name base :: (← attaching name modifiers)
  | .identifier other => do return [.const name (← reference other true)]
  | value => do return [.const name (← value.lowerValue)]

def addingNodes (name : String) : List Expr → Lower (List Script.Stmt)
  | [] => return []
  | e :: es => do
    let node ← e.lowerStep
    return .expr ((Script.Expr.ident name).method "addNode" [node]) :: (← addingNodes name es)

def memory (context : Call) : Lower Script.Expr := do
  if context.name ≠ Keyword.memoryKw.spelling then fail (.unknownContext context.name)
  let config ← Operand.config (operands context.args)
  need "ChainContext"
  return config

def chain (name : String) (pipeline : List Expr) (context : Option Call) : Lower Lowered := do
  need "Chain"
  let nodes ← addingNodes name pipeline
  let memory ← context.mapM memory
  return ⟨.const name (.new "Chain" [.str name]) :: nodes, some ⟨name, memory⟩⟩

/-- The first field of a schema that has the name of one before it. -/
def repeatedField? : List (String × String) → List String → Option String
  | [], _ => none
  | f :: fs, seen => if seen.contains f.1 then some f.1 else repeatedField? fs (f.1 :: seen)

def schema (name : String) (fields : List (String × String)) : Lower Lowered :=
  match repeatedField? fields [] with
  | some f => fail (.repeatedField f)
  | none => return ⟨[.const name (Component.schemaOf fields)], none⟩

def statement (s : Statement) : Lower Lowered := do
  enter s
  match s.declaration with
  | .definition value => return ⟨← definition s.name value, none⟩
  | .chain pipeline context => chain s.name pipeline context
  | .schema fields => schema s.name fields

/-- The statements of a program one after the other; the first failure ends it. -/
def program : Program → ExceptT LoweringError (StateM Scope) (List Lowered)
  | [] => return []
  | s :: ss => do
    let l ← (statement s).adapt (LoweringError.mk s)
    return l :: (← program ss)

end Lower

/-- A warning for each statement that has the name of one before it. -/
def repeatedNames : List String → Program → List Warning
  | _, [] => []
  | seen, s :: ss =>
    if seen.contains s.name then .repeated s.line s.name :: repeatedNames seen ss
    else repeatedNames (s.name :: seen) ss

def Scope.initial (p : Program) : Scope :=
  ⟨p.map (·.name), [], [], 0, repeatedNames [] p, "", 0⟩

end ChainCompiler
