import ChainCompiler.Lowering.Component

/-! The lowering of expressions. Where an expression with modifiers is a value, the method calls that the modifiers stand
for are chained onto its innermost target. -/

namespace ChainCompiler

/-- An expression as a step of a pipeline, given its lowering as a value: a name is checked, and data is no step. -/
def asStep (e : Expr) (lowered : Lower Script.Expr) : Lower Script.Expr :=
  match e with
  | .identifier name => Lower.reference name true
  | .call _ => lowered
  | .bind .. => lowered
  | e => Lower.fail (.notAStep e.describe)

mutual

def Expr.lowerValue : Expr → Lower Script.Expr
  | .string text => return .str text
  | .number value => return .number value
  | .boolean value => return .bool value
  | .templateVar name => return .str (Component.placeholder name)
  | .identifier name => Lower.reference name false
  | .list items => do return .array (← lowerItems items)
  | .object entries => do return .object (← lowerEntries entries)
  | .call c => c.lower
  | .bind target m => do
    let base ← target.lowerBase
    Component.chaining base (target.modifierSteps ++ [m.attachments])

/-- The innermost target of an expression: a name is checked, and only names and calls can be modified. -/
def Expr.lowerBase : Expr → Lower Script.Expr
  | .bind target _ => target.lowerBase
  | .identifier name => Lower.reference name true
  | .call c => c.lower
  | e => Lower.fail (.notATarget e.describe)

/-- The modifiers of an expression from left to right, each as the step that lowers it. -/
def Expr.modifierSteps : Expr → List (Lower (List Component.Attachment))
  | .bind target m => target.modifierSteps ++ [m.attachments]
  | _ => []

def lowerItems : List Expr → Lower (List Script.Expr)
  | [] => return []
  | e :: es => do
    let v ← e.lowerValue
    return v :: (← lowerItems es)

def lowerEntries : List (String × Expr) → Lower (List (String × Script.Expr))
  | [] => return []
  | (key, e) :: entries => do
    let v ← e.lowerValue
    return (key, v) :: (← lowerEntries entries)

def operands : List Argument → List Operand
  | [] => []
  | ⟨name, e⟩ :: args => ⟨name, e, e.lowerValue⟩ :: operands args

def pipelineSteps : List Expr → Component.Steps
  | [] => []
  | e :: es => asStep e e.lowerValue :: pipelineSteps es

def routerCases : List (Expr × List Expr) → List (Lower Script.Expr × Component.Steps)
  | [] => []
  | (condition, action) :: cases => (condition.lowerValue, pipelineSteps action) :: routerCases cases

def Call.lower : Call → Lower Script.Expr
  | ⟨name, args, none⟩ => Component.call name (operands args) [] none
  | ⟨name, args, some ⟨cases, none⟩⟩ => Component.call name (operands args) (routerCases cases) none
  | ⟨name, args, some ⟨cases, some fallback⟩⟩ =>
    Component.call name (operands args) (routerCases cases) (some (pipelineSteps fallback))

def Call.attachments : Call → Lower (List Component.Attachment)
  | ⟨name, args, _⟩ => Component.modifier name (operands args)

end

def Expr.lowerStep (e : Expr) : Lower Script.Expr := asStep e e.lowerValue

end ChainCompiler
