import ChainCompiler.Number.Double

/-! Programs: definitions, chains and schemas, with the expressions they are made of. -/

namespace ChainCompiler

mutual

inductive Expr where
  /-- A value with a modifier attached to it. -/
  | bind (target : Expr) (modifier : Call)
  | call (call : Call)
  | identifier (name : String)
  | string (text : String)
  | number (value : Double)
  | boolean (value : Bool)
  /-- A placeholder that stands for a value given later. -/
  | templateVar (name : String)
  | list (items : List Expr)
  | object (entries : List (String × Expr))

structure Call where
  name : String
  args : List Argument
  router : Option RouterBlock

/-- An argument without a name is positional. -/
structure Argument where
  name : Option String
  value : Expr

/-- The arms of a router: each condition with the pipeline it leads to, and the pipeline for all else. -/
structure RouterBlock where
  cases : List (Expr × List Expr)
  fallback : Option (List Expr)

end

deriving instance Repr, BEq, Inhabited for Expr, Call, Argument, RouterBlock

def Argument.isNamed (a : Argument) (name : String) : Bool := a.name == some name

namespace Expr

def describe : Expr → String
  | .bind _ m => "bind expression '@ " ++ m.name ++ "'"
  | .call c => "call to '" ++ c.name ++ "'"
  | .identifier name => "identifier '" ++ name ++ "'"
  | .string _ => "string literal"
  | .number _ => "number literal"
  | .boolean _ => "boolean literal"
  | .templateVar _ => "template_var literal"
  | .list _ => "list literal"
  | .object _ => "object literal"

/-- The innermost target of a bind, and its modifiers in the order of attachment. -/
def flatten : Expr → Expr × List Call
  | .bind target m =>
    let (base, modifiers) := target.flatten
    (base, modifiers ++ [m])
  | e => (e, [])

end Expr

inductive Declaration where
  | definition (value : Expr)
  | chain (pipeline : List Expr) (context : Option Call)
  | schema (fields : List (String × String))
  deriving Repr, BEq, Inhabited

structure Statement where
  name : String
  line : Nat
  declaration : Declaration
  deriving Repr, BEq, Inhabited

def Statement.keyword (s : Statement) : String :=
  match s.declaration with
  | .definition _ => "def"
  | .chain .. => "chain"
  | .schema _ => "schema"

/-- The expressions a statement is made of: the value of a definition, the steps of a chain. -/
def Statement.parts (s : Statement) : List Expr :=
  match s.declaration with
  | .definition value => [value]
  | .chain pipeline _ => pipeline
  | .schema _ => []

abbrev Program := List Statement

end ChainCompiler
