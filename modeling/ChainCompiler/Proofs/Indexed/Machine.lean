import ChainCompiler.Parser.Statement

/-! The parser as a machine over a sequence of tokens. It holds an index into the sequence, and a look outside of the
sequence is an outcome of its own. It keeps the indices that it had. It may call itself to a given depth, loops
included, and has no outcome if that is not enough. No part looks at the depth, so nothing in its text says that it
ends. -/

namespace ChainCompiler

/-- How a run is stopped: it looks outside of the tokens, or these are no program. -/
inductive Stop where
  | outOfRange (index : Nat)
  | refused (e : ParseError)
  deriving DecidableEq, Repr

/-- The index of a run, and those that it had before, the latest first. -/
structure Course where
  index : Nat
  passed : List Nat
  deriving DecidableEq, Repr

namespace Course

def start : Course := ⟨0, []⟩

def indices (s : Course) : List Nat := s.index :: s.passed

end Course

/-- A part of a run. It may have no outcome; the indices that it had are known also when it is stopped. -/
abbrev Indexed (α : Type) := ReaderT (List Token) (ExceptT Stop (StateT Course Option)) α

namespace Indexed

variable {α : Type}

def tooDeep : Indexed α := fun _ _ => none

def tokenAt (i : Nat) : Indexed Token := do
  match (← read)[i]? with
  | some t => return t
  | none => throw (.outOfRange i)

def index : Indexed Nat := return (← get).index

def moveTo (i : Nat) : Indexed Unit := modify fun s => ⟨i, s.indices⟩

def current : Indexed Token := do tokenAt (← index)

def peek (offset : Nat) : Indexed Token := do
  let last := (← read).length - 1
  tokenAt (min ((← index) + offset) last)

/-- The current token, with a move past it unless the input ends there. -/
def next : Indexed Token := do
  let token ← current
  if token.kind ≠ .eof then moveTo ((← index) + 1)
  return token

def isAt (k : Kind) : Indexed Bool := return (← current).kind == k

def atName : Indexed Bool := return Parser.isNameKind (← current).kind

def skipNewlines : Nat → Indexed Unit
  | 0 => tooDeep
  | n + 1 => do
    if ← isAt .newline then
      moveTo ((← index) + 1)
      skipNewlines n

def pipeAhead : Indexed Bool := do
  let tokens ← read
  let i ← index
  if tokens.length < i then throw (.outOfRange i)
  return ((tokens.drop i).find? fun t => t.kind != .newline).any fun t => t.kind == .mark .pipe

def fail (want : Want) : Indexed α := do throw (.refused (.unexpected want (← current)))

def duplicate (what : Once) (name : String) (place : Token) : Indexed α :=
  throw (.refused (.duplicate what name place))

def expect (k : Kind) (want : Want) : Indexed Token := do
  if ← isAt k then next else fail want

def expectName (want : Want) : Indexed String := do
  if ← atName then return (← next).text else fail want

def expectIdentifier (want : Want) : Indexed String := do
  if ← isAt .identifier then return (← next).text else fail want

def comma (n : Nat) : Indexed Bool := do
  if ← isAt (.mark .comma) then
    let _ ← next
    skipNewlines n
    return true
  else return false

def memberEnd (close : Mark) (want : Want) (n : Nat) : Indexed Unit := do
  skipNewlines n
  unless ← comma n do
    unless ← isAt (.mark close) do fail want

/-- Whether named arguments come next. The token after the current one is looked at only if that one is a name. -/
def atNamed : Indexed Bool := do
  if ← isAt (.mark .rparen) then return true
  else if ← atName then return (← peek 1).kind == .mark .assign
  else return false

def keySeparator : Indexed Unit := do
  if ← isAt (.mark .colon) then let _ ← next
  else if ← isAt (.mark .assign) then let _ ← next
  else fail .keyColon

def numberLiteral (token : Token) : Indexed Expr :=
  match Double.read? token.text with
  | some value => return .number value
  | none => throw (.refused (.unexpected .number token))

mutual

def expr : Nat → Indexed Expr
  | 0 => tooDeep
  | n + 1 => do
    let token ← current
    match token.kind with
    | .identifier =>
      let _ ← next
      named token.text (Parser.ofName token.text) n
    | .keyword k =>
      if k.isComponent then
        let _ ← next
        named token.text (.identifier token.text) n
      else fail .expression
    | .string =>
      let _ ← next
      return .string (Literal.unquote token.text)
    | .number =>
      let _ ← next
      numberLiteral token
    | .templateVar =>
      let _ ← next
      return .templateVar (Literal.variableName token.text)
    | .mark .lbrace => objectLiteral n
    | .mark .lbracket => listLiteral n
    | _ => fail .expression

def named (name : String) (alone : Expr) : Nat → Indexed Expr
  | 0 => tooDeep
  | n + 1 => do
    if ← isAt (.mark .lparen) then return .call (← call name n)
    else return alone

def call (name : String) : Nat → Indexed Call
  | 0 => tooDeep
  | n + 1 => do
    let _ ← expect (.mark .lparen) (.mark .lparen)
    skipNewlines n
    let args ← if ← atNamed then namedArguments [] n else soleArgument n
    let _ ← expect (.mark .rparen) .argumentsClose
    return ⟨name, args, none⟩

def soleArgument : Nat → Indexed (List Argument)
  | 0 => tooDeep
  | n + 1 => do
    let value ← expr n
    skipNewlines n
    let _ ← comma n
    return [⟨none, value⟩]

def namedArgument (before : List Argument) : Nat → Indexed Argument
  | 0 => tooDeep
  | n + 1 => do
    let token ← current
    let name ← expectName .argumentName
    let _ ← expect (.mark .assign) .argumentAssign
    let value ← expr n
    if before.any (·.isNamed name) then duplicate .argument name token
    return ⟨some name, value⟩

/-- Named arguments up to the closing bracket, after those given, the latest first. -/
def namedArguments (before : List Argument) : Nat → Indexed (List Argument)
  | 0 => tooDeep
  | n + 1 => do
    if ← isAt (.mark .rparen) then return []
    else
      let a ← namedArgument before n
      memberEnd .rparen .argumentEnd n
      let more ← namedArguments (a :: before) n
      return a :: more

def listLiteral : Nat → Indexed Expr
  | 0 => tooDeep
  | n + 1 => do
    let _ ← expect (.mark .lbracket) (.mark .lbracket)
    skipNewlines n
    let xs ← items n
    let _ ← expect (.mark .rbracket) .listClose
    return .list xs

def items : Nat → Indexed (List Expr)
  | 0 => tooDeep
  | n + 1 => do
    if ← isAt (.mark .rbracket) then return []
    else
      let x ← expr n
      memberEnd .rbracket .itemEnd n
      let more ← items n
      return x :: more

def objectLiteral : Nat → Indexed Expr
  | 0 => tooDeep
  | n + 1 => do
    let _ ← expect (.mark .lbrace) (.mark .lbrace)
    skipNewlines n
    let xs ← entries [] n
    let _ ← expect (.mark .rbrace) .objectClose
    return .object xs

def entry (before : List (String × Expr)) : Nat → Indexed (String × Expr)
  | 0 => tooDeep
  | n + 1 => do
    let token ← current
    match Parser.keyText? token with
    | none => fail .objectKey
    | some key =>
      let _ ← next
      keySeparator
      let value ← expr n
      if before.any (·.1 == key) then duplicate .key key token
      return (key, value)

def entries (before : List (String × Expr)) : Nat → Indexed (List (String × Expr))
  | 0 => tooDeep
  | n + 1 => do
    if ← isAt (.mark .rbrace) then return []
    else
      let a ← entry before n
      memberEnd .rbrace .entryEnd n
      let more ← entries (a :: before) n
      return a :: more

end

def modifiers (e : Expr) : Nat → Indexed Expr
  | 0 => tooDeep
  | n + 1 => do
    if ← isAt (.mark .bind) then
      let _ ← next
      let name ← expectIdentifier .modifierName
      let m ← call name n
      modifiers (.bind e m) n
    else return e

def breakBefore (bracketed : Bool) (n : Nat) : Indexed Unit := do
  if bracketed then
    if ← pipeAhead then skipNewlines n

def breakAfter (bracketed : Bool) (n : Nat) : Indexed Unit := do
  if bracketed then skipNewlines n

mutual

def exprBlock : Nat → Indexed Expr
  | 0 => tooDeep
  | n + 1 => do
    match ← expr n with
    | .call c =>
      if c.name = Keyword.router.spelling then
        if ← isAt (.mark .lbrace) then return .call { c with router := some (← routerBlock n) }
        else return .call c
      else return .call c
    | e => return e

def step : Nat → Indexed Expr
  | 0 => tooDeep
  | n + 1 => do
    let e ← exprBlock n
    modifiers e n

def pipeline (bracketed : Bool) : Nat → Indexed (List Expr)
  | 0 => tooDeep
  | n + 1 => do
    let e ← step n
    let more ← moreSteps bracketed n
    return e :: more

def moreSteps (bracketed : Bool) : Nat → Indexed (List Expr)
  | 0 => tooDeep
  | n + 1 => do
    breakBefore bracketed n
    if ← isAt (.mark .pipe) then
      let _ ← next
      breakAfter bracketed n
      let e ← step n
      let more ← moreSteps bracketed n
      return e :: more
    else return []

def routerBlock : Nat → Indexed RouterBlock
  | 0 => tooDeep
  | n + 1 => do
    let _ ← expect (.mark .lbrace) .routerOpen
    let b ← arms false n
    let _ ← expect (.mark .rbrace) .routerClose
    return b

def arms (hasFallback : Bool) : Nat → Indexed RouterBlock
  | 0 => tooDeep
  | n + 1 => do
    skipNewlines n
    if ← isAt (.mark .rbrace) then return ⟨[], none⟩
    else
      let a ← arm hasFallback n
      if ← isAt (.mark .comma) then let _ ← next
      let more ← arms (hasFallback || a.isFallback) n
      return a.before more

def arm (hasFallback : Bool) : Nat → Indexed Parser.Arm
  | 0 => tooDeep
  | n + 1 => do
    let token ← current
    match token.kind with
    | .keyword .caseKw =>
      let _ ← next
      let condition ← expr n
      let _ ← expect (.mark .arrow) .caseArrow
      let action ← pipeline true n
      return .case condition action
    | .keyword .defaultKw =>
      if hasFallback then duplicate .routerArm Keyword.defaultKw.spelling token
      let _ ← next
      let _ ← expect (.mark .arrow) .defaultArrow
      let action ← pipeline true n
      return .fallback action
    | _ => fail .arm

end

def endStatement : Indexed Unit := do
  if ← isAt .newline then let _ ← next

def heading (k : Keyword) (want : Want) : Indexed (Nat × String) := do
  let token ← expect (.keyword k) (.keyword k)
  let name ← expectIdentifier want
  return (token.pos.line, name)

def definition (n : Nat) : Indexed Statement := do
  let (line, name) ← heading .defKw .definitionName
  let _ ← expect (.mark .assign) (.mark .assign)
  let value ← step n
  endStatement
  return ⟨name, line, .definition value⟩

def contextBody (n : Nat) : Indexed (List Expr × Option Call) := do
  let _ ← expect (.keyword .memoryKw) (.keyword .memoryKw)
  let context ← call Keyword.memoryKw.spelling n
  let _ ← expect (.mark .lbrace) .bodyOpen
  skipNewlines n
  let steps ← pipeline true n
  skipNewlines n
  let _ ← expect (.mark .rbrace) .bodyClose
  return (steps, some context)

def chain (n : Nat) : Indexed Statement := do
  let (line, name) ← heading .chainKw .chainName
  let _ ← expect (.mark .assign) (.mark .assign)
  let (steps, context) ←
    if ← isAt (.keyword .withKw) then
      let _ ← next
      contextBody n
    else pure (← pipeline false n, none)
  endStatement
  return ⟨name, line, .chain steps context⟩

def fieldEnd (n : Nat) : Indexed Unit := do
  match (← current).kind with
  | .mark .comma => let _ ← next; skipNewlines n
  | .newline => let _ ← next; skipNewlines n
  | .mark .rbrace => return ()
  | .identifier => return ()
  | _ => fail .fieldEnd

def fields : Nat → Indexed (List (String × String))
  | 0 => tooDeep
  | n + 1 => do
    if ← isAt (.mark .rbrace) then return []
    else
      let name ← expectIdentifier .fieldName
      let _ ← expect (.mark .colon) (.mark .colon)
      let typeName ← expectIdentifier .fieldType
      fieldEnd n
      let more ← fields n
      return (name, typeName) :: more

def schema (n : Nat) : Indexed Statement := do
  let (line, name) ← heading .schemaKw .schemaName
  let _ ← expect (.mark .lbrace) .schemaOpen
  skipNewlines n
  let fs ← fields n
  let _ ← expect (.mark .rbrace) .schemaClose
  endStatement
  return ⟨name, line, .schema fs⟩

def program : Nat → Indexed Program
  | 0 => tooDeep
  | n + 1 => do
    match (← current).kind with
    | .eof => return []
    | .newline =>
      let _ ← next
      program n
    | .keyword .defKw =>
      let s ← definition n
      let more ← program n
      return s :: more
    | .keyword .chainKw =>
      let s ← chain n
      let more ← program n
      return s :: more
    | .keyword .schemaKw =>
      let s ← schema n
      let more ← program n
      return s :: more
    | _ => fail .statement

end Indexed

end ChainCompiler
