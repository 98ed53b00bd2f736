import ChainCompiler.Parser.Pipeline
import ChainCompiler.Token.Stream

/-! Parsing of statements and of whole programs. Everywhere `n` is a bound on the tokens that are left. -/

namespace ChainCompiler.Parser

def endStatement : Parser Unit := do
  if ← isAt .newline then let _ ← next

/-- The keyword and the name a statement starts with: its line and its name. -/
def heading (k : Keyword) (want : Want) : Parser (Nat × String) := do
  let token ← expect (.keyword k) (.keyword k)
  let name ← expectIdentifier want
  return (token.pos.line, name)

def definition (n : Nat) : Parser Statement := do
  let (line, name) ← heading .defKw .definitionName
  let _ ← expect (.mark .assign) (.mark .assign)
  let value ← step n (routerBlock n)
  endStatement
  return ⟨name, line, .definition value⟩

def contextBody (n : Nat) : Parser (List Expr × Option Call) := do
  let _ ← expect (.keyword .memoryKw) (.keyword .memoryKw)
  let context ← call n (expr n) Keyword.memoryKw.spelling
  let _ ← expect (.mark .lbrace) .bodyOpen
  skipNewlines
  let steps ← pipeline n (routerBlock n) true
  skipNewlines
  let _ ← expect (.mark .rbrace) .bodyClose
  return (steps, some context)

def chain (n : Nat) : Parser Statement := do
  let (line, name) ← heading .chainKw .chainName
  let _ ← expect (.mark .assign) (.mark .assign)
  let (steps, context) ←
    if ← isAt (.keyword .withKw) then
      let _ ← next
      contextBody n
    else pure (← pipeline n (routerBlock n) false, none)
  endStatement
  return ⟨name, line, .chain steps context⟩

/-- What ends a field: a comma or newlines, or nothing before the next field or the closing brace. -/
def fieldEnd : Parser Unit := do
  match ← kind with
  | .mark .comma => let _ ← next; skipNewlines
  | .newline => let _ ← next; skipNewlines
  | .mark .rbrace => return ()
  | .identifier => return ()
  | _ => fail .fieldEnd

def fields : Nat → Parser (List (String × String))
  | 0 => fail .fieldName
  | n + 1 => do
    if ← isAt (.mark .rbrace) then return []
    let name ← expectIdentifier .fieldName
    let _ ← expect (.mark .colon) (.mark .colon)
    let typeName ← expectIdentifier .fieldType
    fieldEnd
    return (name, typeName) :: (← fields n)

def schema (n : Nat) : Parser Statement := do
  let (line, name) ← heading .schemaKw .schemaName
  let _ ← expect (.mark .lbrace) .schemaOpen
  skipNewlines
  let fs ← fields (n + 1)
  let _ ← expect (.mark .rbrace) .schemaClose
  endStatement
  return ⟨name, line, .schema fs⟩

def statements : Nat → Parser Program
  | 0 => fail .statement
  | n + 1 => do
    match ← kind with
    | .eof => return []
    | .newline => let _ ← next; statements n
    | .keyword .defKw => let s ← definition n; return s :: (← statements n)
    | .keyword .chainKw => let s ← chain n; return s :: (← statements n)
    | .keyword .schemaKw => let s ← schema n; return s :: (← statements n)
    | _ => fail .statement

/-- A whole program. Each statement and each newline takes a token, so the tokens left bound their number. -/
def program : Parser Program := do statements ((← remaining) + 1)

end ChainCompiler.Parser

namespace ChainCompiler

inductive SourceError where
  | lex (e : LexError)
  | parse (e : ParseError)
  deriving DecidableEq, Repr

namespace Program

def ofTokens (ts : List Token) : Except ParseError Program :=
  (Parser.program (Cursor.ofTokens ts)).map (·.1)

def ofSource (source : String) : Except SourceError Program :=
  match Token.tokenize source with
  | .error e => .error (.lex e)
  | .ok ts => (ofTokens ts).mapError .parse

end Program

end ChainCompiler
