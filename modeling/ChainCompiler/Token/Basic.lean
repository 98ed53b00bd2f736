import ChainCompiler.Token.Keyword

/-! Tokens: what a source text is read as, each with its text and the place where it starts. -/

namespace ChainCompiler

/-- A place in a text. Lines and columns count from one, columns in characters. -/
structure Position where
  line : Nat
  column : Nat
  deriving DecidableEq, Repr, Inhabited

namespace Position

def start : Position := ⟨1, 1⟩

def next (p : Position) (c : Char) : Position :=
  if c = '\n' then ⟨p.line + 1, 1⟩ else ⟨p.line, p.column + 1⟩

def after (p : Position) (cs : List Char) : Position := cs.foldl next p

@[simp] theorem after_nil (p : Position) : p.after [] = p := rfl

@[simp] theorem after_cons (p : Position) (c : Char) (cs : List Char) : p.after (c :: cs) = (p.next c).after cs := rfl

theorem after_append (p : Position) (a b : List Char) : p.after (a ++ b) = (p.after a).after b := by
  simp [after, List.foldl_append]

end Position

inductive Mark where
  | pipe | arrow | assign | colon | comma | bind
  | lbrace | rbrace | lparen | rparen | lbracket | rbracket
  deriving DecidableEq, Repr, Inhabited

def Mark.spelling : Mark → String
  | .pipe => ">>"
  | .arrow => "=>"
  | .assign => "="
  | .colon => ":"
  | .comma => ","
  | .bind => "@"
  | .lbrace => "\x7b"
  | .rbrace => "\x7d"
  | .lparen => "("
  | .rparen => ")"
  | .lbracket => "["
  | .rbracket => "]"

inductive Kind where
  | newline
  | mark (m : Mark)
  | keyword (k : Keyword)
  | number
  | string
  | templateVar
  | identifier
  | eof
  deriving DecidableEq, Repr, Inhabited

structure Token where
  kind : Kind
  text : String
  pos : Position
  deriving DecidableEq, Repr, Inhabited

namespace Token

def describe (t : Token) : String :=
  match t.kind with
  | .newline => "newline"
  | .mark m => "'" ++ m.spelling ++ "'"
  | .keyword _ => "keyword '" ++ t.text ++ "'"
  | .number => "number '" ++ t.text ++ "'"
  | .string => "string '" ++ t.text ++ "'"
  | .templateVar => "template variable '" ++ t.text ++ "'"
  | .identifier => "identifier '" ++ t.text ++ "'"
  | .eof => "end of input"

def eofAt (p : Position) : Token := ⟨.eof, "", p⟩

end Token

end ChainCompiler
