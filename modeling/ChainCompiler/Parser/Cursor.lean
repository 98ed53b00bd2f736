import ChainCompiler.Parser.Error

/-! A place in a token sequence, and the parsers that move it. A cursor never passes an end-of-input token, so
every token sequence, however it was made, can be parsed without leaving it. -/

namespace ChainCompiler

/-- The token at a place and those after it. -/
structure Cursor where
  current : Token
  rest : List Token
  deriving DecidableEq, Repr, Inhabited

namespace Cursor

/-- The place just after a token. Columns are counted in 64 bits. -/
def endOf (t : Token) : Position := ⟨t.pos.line, (t.pos.column + t.text.length) % UInt64.size⟩

/-- The start of a token sequence. One that does not end in an end-of-input token is given one. -/
def ofTokens : List Token → Cursor
  | [] => ⟨.eofAt .start, []⟩
  | t :: ts =>
    let last := ts.getLastD t
    if last.kind = .eof then ⟨t, ts⟩ else ⟨t, ts ++ [.eofAt (endOf last)]⟩

def advance (c : Cursor) : Cursor :=
  if c.current.kind = .eof then c
  else match c.rest with
    | [] => c
    | t :: ts => ⟨t, ts⟩

def peekKind (c : Cursor) : Kind := (c.rest.headD c.current).kind

def skipFrom (t : Token) : List Token → Cursor
  | [] => ⟨t, []⟩
  | u :: ts => if t.kind = .newline then skipFrom u ts else ⟨t, u :: ts⟩

def skipNewlines (c : Cursor) : Cursor := skipFrom c.current c.rest

end Cursor

/-- A reader of part of a token sequence: it gives what it read and the place after it, or fails. -/
abbrev Parser := StateT Cursor (Except ParseError)

namespace Parser

def fail {α : Type} (want : Want) : Parser α := fun c => .error (.unexpected want c.current)

def duplicate {α : Type} (what : Once) (name : String) (place : Token) : Parser α :=
  fun _ => .error (.duplicate what name place)

def current : Parser Token := fun c => .ok (c.current, c)

def kind : Parser Kind := fun c => .ok (c.current.kind, c)

def isAt (k : Kind) : Parser Bool := fun c => .ok (c.current.kind == k, c)

def next : Parser Token := fun c => .ok (c.current, c.advance)

def skipNewlines : Parser Unit := fun c => .ok ((), c.skipNewlines)

/-- The number of tokens after the current one: no more than so many can still be read. -/
def remaining : Parser Nat := fun c => .ok (c.rest.length, c)

def expect (k : Kind) (want : Want) : Parser Token := fun c =>
  if c.current.kind = k then .ok (c.current, c.advance) else .error (.unexpected want c.current)

def isNameKind : Kind → Bool
  | .identifier => true
  | .keyword _ => true
  | _ => false

def expectName (want : Want) : Parser String := fun c =>
  if isNameKind c.current.kind then .ok (c.current.text, c.advance) else .error (.unexpected want c.current)

def expectIdentifier (want : Want) : Parser String := fun c =>
  if c.current.kind = .identifier then .ok (c.current.text, c.advance) else .error (.unexpected want c.current)

def comma : Parser Bool := fun c =>
  if c.current.kind = .mark .comma then .ok (true, c.advance.skipNewlines) else .ok (false, c)

end Parser

end ChainCompiler
