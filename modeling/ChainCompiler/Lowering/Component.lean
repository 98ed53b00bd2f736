import ChainCompiler.Lowering.Scope
import ChainCompiler.Lowering.Template

/-! The lowering of components and modifiers, given their arguments. -/

namespace ChainCompiler.Component

def placeholder (name : String) : String := "\x7b" ++ name ++ "\x7d"

/-- A model takes its only unnamed argument as it is, and named ones as one object. -/
def model (ops : List Operand) : Lower Script.Expr := do
  Lower.need "Model"
  let args ←
    match Operand.sole? ops with
    | some o => pure [← o.value]
    | none => if ops.isEmpty then pure [] else pure [.object (← Operand.fields [] ops)]
  return .new "Model" args

/-- The schema of a list of properties, all of which are required. -/
def schemaOf (fields : List (String × String)) : Script.Expr :=
  .object [("type", .str "object"),
    ("properties", .object (fields.map fun f => (f.1, .object [("type", .str f.2)]))),
    ("required", .array (fields.map fun f => .str f.1))]

def valueOr (o : Option Operand) (absent : Script.Expr) : Lower Script.Expr :=
  match o with
  | some o => o.value
  | none => return absent

def tool (ops : List Operand) : Lower Script.Expr := do
  Lower.need "Tool"
  Operand.rejectUnknown "Tool" ops ["name", "description", "desc", "handler", "func", "schema"]
  let some name := Operand.find? ops "name" | Lower.fail .noToolName
  let some handler := Operand.findAny? ops ["handler", "func"] | Lower.fail .noHandler
  let name ← name.value
  let description ← valueOr (Operand.findAny? ops ["description", "desc"]) (.str "")
  let handler ← handler.value
  let schema ← valueOr (Operand.find? ops "schema") (schemaOf [])
  return .new "Tool" [name, description, handler, schema]

/-- The arguments of a prompt for a template given as text: the variables follow it if there are any. -/
def templateArgs (text : String) : List Script.Expr :=
  let text := Template.normalize text
  let names := Template.names text
  .str text :: if names.isEmpty then [] else [.array (names.map .str)]

def prompt (ops : List Operand) : Lower Script.Expr := do
  Lower.need "Prompt"
  Operand.rejectUnknown "Prompt" ops ["template"]
  let some template := Operand.find? ops "template" <|> Operand.sole? ops | Lower.fail .noTemplate
  let args ←
    match template.source with
    | .string text => pure (templateArgs text)
    | .templateVar name => pure [.str (placeholder name), .array [.str name]]
    | _ => pure [← template.value]
  return .new "Prompt" args

/-- A builtin is named by a string or by a bare name; its other named arguments become one object. -/
def builtin (ops : List Operand) : Lower Script.Expr := do
  Lower.need "Builtin"
  let some kind := Operand.findAny? ops ["kind", "type"] <|> Operand.sole? ops | Lower.fail .noKind
  let kind ←
    match kind.source with
    | .string name => pure name
    | .identifier name => pure name
    | e => Lower.fail (.kindNotName e.describe)
  let config ← Operand.fields ["kind", "type"] ops
  return .new "Builtin" (.str kind :: if config.isEmpty then [] else [.object config])

/-- A pipeline as the steps that lower its members. -/
abbrev Steps := List (Lower Script.Expr)

def addNodes (chain : Script.Expr) : Steps → Lower Script.Expr
  | [] => return chain
  | step :: steps => do
    let node ← step
    addNodes (chain.method "addNode" [node]) steps

def branch (label : String) (steps : Steps) : Lower Script.Expr := do
  Lower.need "Chain"
  addNodes (.new "Chain" [.str label]) steps

def routes (label : String) : Nat → List (Lower Script.Expr × Steps) → Lower (List Script.Expr)
  | _, [] => return []
  | index, (condition, steps) :: cases => do
    let condition ← condition
    let action ← branch (label ++ "_case_" ++ index.repr) steps
    return .object [("when", condition), ("then", action)] :: (← routes label (index + 1) cases)

def router (ops : List Operand) (cases : List (Lower Script.Expr × Steps)) (fallback : Option Steps) :
    Lower Script.Expr := do
  Lower.need "Router"
  let config ← Operand.config ops
  let label ← Lower.routerLabel
  let routes ← routes label 0 cases
  let fallback ←
    match fallback with
    | some steps => branch (label ++ "_default") steps
    | none => pure .null
  return .new "Router" [config, .array routes, fallback]

def call (name : String) (ops : List Operand) (cases : List (Lower Script.Expr × Steps)) (fallback : Option Steps) :
    Lower Script.Expr :=
  if name = "Model" then model ops
  else if name = "Tool" then tool ops
  else if name = "Prompt" then prompt ops
  else if name = "Builtin" then builtin ops
  else if name = "Router" then router ops cases fallback
  else if Lower.isEndpoint name && ops.isEmpty then Lower.reference name false
  else Lower.fail (.unknownCall name)

/-- A method call that a modifier attaches to its target. -/
abbrev Attachment := String × Script.Expr

def bindTools : List Expr → Lower (List Attachment)
  | [] => return []
  | .identifier name :: items => do
    Lower.registerTool name
    return ("bind_tool", .ident name) :: (← bindTools items)
  | e :: _ => Lower.fail (.toolNotName e.describe)

def bindModifier (ops : List Operand) : Lower (List Attachment) := do
  Operand.rejectUnknown "bind" ops ["tools"]
  let some tools := Operand.find? ops "tools" <|> Operand.sole? ops | Lower.fail .noTools
  match tools.source with
  | .list items => bindTools items
  | e => Lower.fail (.toolsNotList e.describe)

def outputModifier (ops : List Operand) : Lower (List Attachment) := do
  Operand.rejectUnknown "output" ops ["schema"]
  let some schema := Operand.find? ops "schema" <|> Operand.sole? ops | Lower.fail .noSchema
  let value ←
    match schema.source with
    | .identifier name => Lower.reference name true
    | .object _ => schema.value
    | e => Lower.fail (.schemaNotName e.describe)
  return [("bind_structure", value)]

def modifier (name : String) (ops : List Operand) : Lower (List Attachment) :=
  if name = "bind" then bindModifier ops
  else if name = "output" then outputModifier ops
  else Lower.fail (.unknownModifier name)

/-- Method calls chained onto an expression, for one modifier after the other. -/
def chaining (e : Script.Expr) : List (Lower (List Attachment)) → Lower Script.Expr
  | [] => return e
  | modifier :: modifiers => do
    let calls ← modifier
    chaining (calls.foldl (fun e a => e.method a.1 [a.2]) e) modifiers

end ChainCompiler.Component
