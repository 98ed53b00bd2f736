/-! A place in a YAML text: what is still to be read, and the line and column it starts at. -/

namespace ChainCompiler.Yaml

def isAllowed (c : Char) : Bool :=
  let n := c.toNat
  n == 0x09 || n == 0x0a || n == 0x0d || (0x20 ≤ n && n ≤ 0x7e) || n == 0x85 ||
    (0xa0 ≤ n && n ≤ 0xd7ff) || (0xe000 ≤ n && n ≤ 0xfffd) || 0x10000 ≤ n

def isSpace (c : Char) : Bool := c == ' ' || c == '\t'

/-- A character that ends a line: the five that the language knows. -/
def isBreak (c : Char) : Bool :=
  c == '\n' || c == '\r' || c == '\u0085' || c == '\u2028' || c == '\u2029'

def isNameChar (c : Char) : Bool := c.isAlphanum || c == '_' || c == '-'

def byteCount (cs : List Char) : Nat := cs.foldl (fun n c => n + c.utf8Size) 0

structure Place where
  rest : List Char
  line : Nat
  column : Nat
  deriving Repr, Inhabited

namespace Place

def ofText (cs : List Char) : Place := ⟨cs, 0, 0⟩

def peek? (p : Place) (k : Nat) : Option Char := p.rest[k]?

def isAt (p : Place) (c : Char) (k : Nat := 0) : Bool := p.peek? k == some c

def isAtAny (p : Place) (cs : List Char) (k : Nat := 0) : Bool :=
  match p.peek? k with
  | some c => cs.contains c
  | none => false

def atEnd (p : Place) : Bool := p.rest.isEmpty

/-- Whether a space, a tab, the end of the line or the end of the text stands so many places on. -/
def isGap (p : Place) (k : Nat := 0) : Bool :=
  match p.peek? k with
  | some c => isSpace c || isBreak c
  | none => true

def isSpaceHere (p : Place) : Bool := p.peek? 0 |>.any isSpace

def isBreakHere (p : Place) : Bool := p.peek? 0 |>.any isBreak

def isLineEnd (p : Place) : Bool := p.atEnd || p.isBreakHere

def advance (p : Place) (n : Nat := 1) : Place :=
  ⟨p.rest.drop n, p.line, p.column + n⟩

/-- The line break here as it counts in a scalar, and the start of the next line. Without a break nothing happens. -/
def readBreak (p : Place) : List Char × Place :=
  match p.rest with
  | '\r' :: '\n' :: cs => (['\n'], ⟨cs, p.line + 1, 0⟩)
  | c :: cs =>
    if c == '\u2028' || c == '\u2029' then ([c], ⟨cs, p.line + 1, 0⟩)
    else if isBreak c then (['\n'], ⟨cs, p.line + 1, 0⟩)
    else ([], p)
  | [] => ([], p)

/-- The characters from here on that are of a class, and the place after them. -/
def span (p : Place) (test : Char → Bool) : List Char × Place :=
  let cs := p.rest.takeWhile test
  (cs, p.advance cs.length)

def skipWhile (p : Place) (test : Char → Bool) : Place := (p.span test).2

def skipLine (p : Place) : Place := p.skipWhile fun c => !isBreak c

/-- Whether a line of three such characters starts here, which marks a boundary of a document. -/
def isTriple (p : Place) (c : Char) : Bool :=
  p.column == 0 && p.isAt c && p.isAt c 1 && p.isAt c 2 && p.isGap 3

def isBoundary (p : Place) : Bool := p.isTriple '-' || p.isTriple '.'

end Place

end ChainCompiler.Yaml
