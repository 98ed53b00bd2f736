import ChainCompiler.Number.Reader
import ChainCompiler.Parser.Cursor
import ChainCompiler.Program.Basic
import ChainCompiler.Program.Literal

/-! Parsing of expressions. Each parser below takes the parser for the expressions inside it, and an expression
is parsed by tying that knot once for each level of nesting. A bound on the tokens that are left also bounds the
levels and the members, since every bracket and every member takes one. -/

namespace ChainCompiler.Parser

/-- Members up to the closing mark, with commas between them; a comma may also follow the last one. Each member
is read in knowledge of those before it, the latest first. Fewer than `n` members are read. -/
def members {α : Type} (member : List α → Parser α) (close : Mark) (want : Want) :
    Nat → List α → Parser (List α)
  | 0, _ => fail want
  | n + 1, before => do
    if ← isAt (.mark close) then return []
    let x ← member before
    skipNewlines
    unless ← comma do
      unless ← isAt (.mark close) do fail want
    return x :: (← members member close want n (x :: before))

def membersTo {α : Type} (n : Nat) (member : List α → Parser α) (close : Mark) (want wantClose : Want) :
    Parser (List α) := do
  skipNewlines
  let xs ← members member close want (n + 1) []
  let _ ← expect (.mark close) wantClose
  return xs

def namedArgument (inner : Parser Expr) (before : List Argument) : Parser Argument := do
  let token ← current
  let name ← expectName .argumentName
  let _ ← expect (.mark .assign) .argumentAssign
  let value ← inner
  if before.any (·.isNamed name) then duplicate .argument name token
  return ⟨some name, value⟩

/-- Whether named arguments come next, which an empty list counts as. -/
def atNamed : Parser Bool := fun c =>
  .ok (c.current.kind == .mark .rparen ||
    (isNameKind c.current.kind && c.peekKind == .mark .assign), c)

def soleArgument (inner : Parser Expr) : Parser (List Argument) := do
  let value ← inner
  skipNewlines
  let _ ← comma
  let _ ← expect (.mark .rparen) .argumentsClose
  return [⟨none, value⟩]

/-- The arguments of a call: named ones, or a single one without a name. -/
def arguments (n : Nat) (inner : Parser Expr) : Parser (List Argument) := do
  let _ ← expect (.mark .lparen) (.mark .lparen)
  skipNewlines
  if ← atNamed then membersTo n (namedArgument inner) .rparen .argumentEnd .argumentsClose
  else soleArgument inner

def call (n : Nat) (inner : Parser Expr) (name : String) : Parser Call := do
  return ⟨name, ← arguments n inner, none⟩

def keyText? (t : Token) : Option String :=
  match t.kind with
  | .identifier => some t.text
  | .keyword _ => some t.text
  | .string => some (Literal.unquote t.text)
  | _ => none

def keySeparator : Parser Unit := do
  if (← isAt (.mark .colon)) || (← isAt (.mark .assign)) then let _ ← next
  else fail .keyColon

def entry (inner : Parser Expr) (before : List (String × Expr)) : Parser (String × Expr) := do
  let token ← current
  match keyText? token with
  | none => fail .objectKey
  | some key =>
    let _ ← next
    keySeparator
    let value ← inner
    if before.any (·.1 == key) then duplicate .key key token
    return (key, value)

def listLiteral (n : Nat) (inner : Parser Expr) : Parser Expr := do
  let _ ← expect (.mark .lbracket) (.mark .lbracket)
  return .list (← membersTo n (fun _ => inner) .rbracket .itemEnd .listClose)

def objectLiteral (n : Nat) (inner : Parser Expr) : Parser Expr := do
  let _ ← expect (.mark .lbrace) (.mark .lbrace)
  return .object (← membersTo n (entry inner) .rbrace .entryEnd .objectClose)

def ofName (name : String) : Expr :=
  if name = "true" then .boolean true
  else if name = "false" then .boolean false
  else .identifier name

def named (n : Nat) (inner : Parser Expr) (name : String) (alone : Expr) : Parser Expr := do
  if ← isAt (.mark .lparen) then return .call (← call n inner name)
  return alone

def numberLiteral (token : Token) : Parser Expr :=
  match Double.read? token.text with
  | some value => return .number value
  | none => fun _ => .error (.unexpected .number token)

/-- An expression, given the parser for the expressions inside it, with at most `n` members in brackets. -/
def exprWith (n : Nat) (inner : Parser Expr) : Parser Expr := do
  let token ← current
  match token.kind with
  | .identifier =>
    let _ ← next
    named n inner token.text (ofName token.text)
  | .keyword k =>
    if k.isComponent then
      let _ ← next
      named n inner token.text (.identifier token.text)
    else fail .expression
  | .string =>
    let _ ← next
    return .string (Literal.unquote token.text)
  | .number =>
    let _ ← next
    numberLiteral token
  | .templateVar =>
    let _ ← next
    return .templateVar (Literal.variableName token.text)
  | .mark .lbrace => objectLiteral n inner
  | .mark .lbracket => listLiteral n inner
  | _ => fail .expression

def exprTo : Nat → Parser Expr
  | 0 => fail .expression
  | n + 1 => exprWith n (exprTo n)

def expr (n : Nat) : Parser Expr := exprTo (n + 1)

end ChainCompiler.Parser
