import ChainCompiler.Number.Shortest
import ChainCompiler.Script.Basic
import ChainCompiler.Text.Quoted

/-! The text of a script. String contents reach it through the quoter alone. A list or an object stays on one
line unless one of its members asks for lines of its own; then each member has its line, one level deeper. -/

namespace ChainCompiler.Script

open ChainCompiler.Text

def indent (level : Nat) : List Char := List.replicate (4 * level) ' '

def joined (sep : String) (parts : List (List Char)) : List Char :=
  List.intercalate sep.toList parts

def oneLine (opening closing : String) (members : List (List Char)) : List Char :=
  opening.toList ++ joined ", " members ++ closing.toList

def manyLines (opening closing : String) (level : Nat) (members : List (List Char)) : List Char :=
  opening.toList ++ '\n' :: joined ",\n" (members.map (indent (level + 1) ++ ·)) ++
    '\n' :: indent level ++ closing.toList

def isKeyStart (c : Char) : Bool := c.isAlpha || c == '_' || c == '$'

def isKeyChar (c : Char) : Bool := c.isAlphanum || c == '_' || c == '$'

def isBareKey (key : String) : Bool :=
  match key.toList with
  | [] => false
  | c :: cs => isKeyStart c && cs.all isKeyChar

def keyText (key : String) : List Char :=
  if isBareKey key then key.toList else (quote key).toList

def Expr.wantsLine : Expr → Bool
  | .new .. => true
  | .call .. => true
  | e => e.isCompound

mutual

def Expr.render (level : Nat) : Expr → List Char
  | .ident name => name.toList
  | .str text => (quote text).toList
  | .number value => value.toText.toList
  | .bool value => (if value then "true" else "false").toList
  | .null => "null".toList
  | .array items =>
    if items.isEmpty then "[]".toList
    else if items.any Expr.wantsLine then manyLines "[" "]" level (renderItems (level + 1) items)
    else oneLine "[" "]" (renderItems level items)
  | .object fields =>
    if fields.isEmpty then "\x7b\x7d".toList
    else if fields.any (·.2.isCompound) then manyLines "\x7b" "\x7d" level (renderFields (level + 1) fields)
    else oneLine "\x7b " " \x7d" (renderFields level fields)
  | .new className args =>
    "new ".toList ++ className.toList ++ oneLine "(" ")" (renderItems level args)
  | .call callee args => callee.render level ++ oneLine "(" ")" (renderItems level args)
  | .member owner property => owner.render level ++ '.' :: property.toList
  | .await value => "await ".toList ++ value.render level

def renderItems (level : Nat) : List Expr → List (List Char)
  | [] => []
  | e :: es => e.render level :: renderItems level es

def renderFields (level : Nat) : List (String × Expr) → List (List Char)
  | [] => []
  | (key, e) :: fields => (keyText key ++ ": ".toList ++ e.render level) :: renderFields level fields

end

theorem renderItems_eq_map (level : Nat) (es : List Expr) : renderItems level es = es.map (Expr.render level) := by
  induction es with
  | nil => simp [renderItems]
  | cons e es ih => simp [renderItems, ih]

theorem renderFields_eq_map (level : Nat) (fields : List (String × Expr)) :
    renderFields level fields =
      fields.map fun f => keyText f.1 ++ ": ".toList ++ f.2.render level := by
  induction fields with
  | nil => simp [renderFields]
  | cons f fields ih => simp [renderFields, ih]

namespace Expr

variable (level : Nat)

@[simp] theorem render_ident (name : String) : (ident name).render level = name.toList := rfl

@[simp] theorem render_str (text : String) : (str text).render level = (quote text).toList := rfl

@[simp] theorem render_number (value : Double) : (number value).render level = value.toText.toList := rfl

@[simp] theorem render_bool (value : Bool) :
    (bool value).render level = (if value then "true" else "false").toList := rfl

@[simp] theorem render_null : null.render level = "null".toList := rfl

theorem render_array (items : List Expr) :
    (array items).render level =
      if items.isEmpty then "[]".toList
      else if items.any wantsLine then manyLines "[" "]" level (renderItems (level + 1) items)
      else oneLine "[" "]" (renderItems level items) := rfl

theorem render_object (fields : List (String × Expr)) :
    (object fields).render level =
      if fields.isEmpty then "\x7b\x7d".toList
      else if fields.any (·.2.isCompound) then manyLines "\x7b" "\x7d" level (renderFields (level + 1) fields)
      else oneLine "\x7b " " \x7d" (renderFields level fields) := rfl

@[simp] theorem render_new (className : String) (args : List Expr) :
    (new className args).render level =
      "new ".toList ++ className.toList ++ oneLine "(" ")" (renderItems level args) := rfl

@[simp] theorem render_call (callee : Expr) (args : List Expr) :
    (call callee args).render level = callee.render level ++ oneLine "(" ")" (renderItems level args) := rfl

@[simp] theorem render_member (owner : Expr) (property : String) :
    (member owner property).render level = owner.render level ++ '.' :: property.toList := rfl

@[simp] theorem render_await (value : Expr) : (await value).render level = "await ".toList ++ value.render level := rfl

end Expr

def names (ns : List String) : List Char := joined ", " (ns.map String.toList)

mutual

/-- The lines of a statement. An expression may hold line breaks of its own inside a line. -/
def Stmt.lines (level : Nat) : Stmt → List (List Char)
  | .imports ns source =>
    [indent level ++ "import \x7b ".toList ++ names ns ++ " \x7d from ".toList ++ (quote source).toList ++ [';']]
  | .const name value =>
    [indent level ++ "const ".toList ++ name.toList ++ " = ".toList ++ value.render level ++ [';']]
  | .expr value => [indent level ++ value.render level ++ [';']]
  | .result value => [indent level ++ "return ".toList ++ value.render level ++ [';']]
  | .comment text => [indent level ++ "// ".toList ++ text.toList]
  | .blank => [[]]
  | .function name params body =>
    (indent level ++ "export async function ".toList ++ name.toList ++ '(' :: names params ++ ") \x7b".toList) ::
      (linesOf (level + 1) body ++ [indent level ++ "\x7d".toList])

def linesOf (level : Nat) : List Stmt → List (List Char)
  | [] => []
  | s :: ss => s.lines level ++ linesOf level ss

end

theorem linesOf_append (level : Nat) (a b : List Stmt) : linesOf level (a ++ b) = linesOf level a ++ linesOf level b := by
  induction a with
  | nil => simp [linesOf]
  | cons s ss ih => simp [linesOf, ih]

def Expr.text (e : Expr) : String := String.ofList (e.render 0)

def text (ss : List Stmt) : String := String.ofList (joined "\n" (linesOf 0 ss))

end ChainCompiler.Script
