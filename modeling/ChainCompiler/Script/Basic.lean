import ChainCompiler.Number.Double

/-! The script that a compiled module consists of: expressions and statements as trees. No tree holds text that
has to be read again: names, keys and string contents stand in their own places. -/

namespace ChainCompiler.Script

inductive Expr where
  | ident (name : String)
  | str (text : String)
  | number (value : Double)
  | bool (value : Bool)
  | null
  | array (items : List Expr)
  | object (fields : List (String × Expr))
  | new (className : String) (args : List Expr)
  | call (callee : Expr) (args : List Expr)
  | member (owner : Expr) (property : String)
  | await (value : Expr)
  deriving Repr, Inhabited, BEq

namespace Expr

def method (target : Expr) (name : String) (args : List Expr) : Expr :=
  .call (.member target name) args

def isCompound : Expr → Bool
  | .array items => !items.isEmpty
  | .object fields => !fields.isEmpty
  | _ => false

end Expr

inductive Stmt where
  | imports (names : List String) (source : String)
  | const (name : String) (value : Expr)
  | expr (value : Expr)
  | result (value : Expr)
  | comment (text : String)
  | blank
  | function (name : String) (params : List String) (body : List Stmt)
  deriving Repr, Inhabited, BEq

end ChainCompiler.Script
