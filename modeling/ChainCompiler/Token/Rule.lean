import ChainCompiler.Text.Word
import ChainCompiler.Token.Basic

/-! The rules that cut a text into lexemes, in the order in which they are tried. Each rule says how much of the
front of a text it takes, and which kind of token that gives, if any. -/

namespace ChainCompiler

open ChainCompiler.Text

inductive Rule where
  | blanks
  | comment
  | newline
  | rawString
  | mark (m : Mark)
  | templateVar
  | keyword
  | number
  | string
  | identifier
  deriving DecidableEq, Repr

namespace Rule

/-- The rules in order. A mark that starts another one comes after it, and keywords come before names. -/
def table : List Rule :=
  [.blanks, .comment, .newline, .rawString,
    .mark .pipe, .mark .arrow, .mark .assign, .mark .colon, .mark .comma, .mark .bind,
    .templateVar,
    .mark .lbrace, .mark .rbrace, .mark .lparen, .mark .rparen, .mark .lbracket, .mark .rbracket,
    .keyword, .number, .string, .identifier]

def isSkipped (c : Char) : Bool := c == ' ' || c == '\t' || c == '\r'

def rawEnd? : List Char → Option Nat
  | [] => none
  | c :: cs =>
    if ['"', '"', '"'].isPrefixOf (c :: cs) then some 3 else (rawEnd? cs).map (· + 1)

/-- The length up to and with the nearest quote that no backslash stands in front of. -/
def stringEnd? : List Char → Option Nat
  | [] => none
  | '"' :: _ => some 1
  | '\\' :: cs =>
    match cs with
    | [] => none
    | _ :: cs => (stringEnd? cs).map (· + 2)
  | _ :: cs => (stringEnd? cs).map (· + 1)

def after? (front : List Char) (cs : List Char) : Option (List Char) :=
  if front.isPrefixOf cs then some (cs.drop front.length) else none

def templateVarLength? (cs : List Char) : Option Nat := do
  let inner ← after? ['\x7b', '\x7b'] cs
  let n ← identifierLength? inner
  if ['\x7d', '\x7d'].isPrefixOf (inner.drop n) then some (n + 4) else none

/-- Digits, and a point with more digits if there are any. -/
def numberLength? (cs : List Char) : Option Nat :=
  let whole := (cs.takeWhile Char.isDigit).length
  if whole = 0 then none
  else match cs.drop whole with
    | '.' :: rest =>
      let fraction := (rest.takeWhile Char.isDigit).length
      some (if fraction = 0 then whole else whole + 1 + fraction)
    | _ => some whole

def length? (r : Rule) (cs : List Char) : Option Nat :=
  match r with
  | .blanks =>
    let n := (cs.takeWhile isSkipped).length
    if n = 0 then none else some n
  | .comment => (after? ['/', '/'] cs).map fun rest => 2 + (rest.takeWhile (· != '\n')).length
  | .newline => if ['\n'].isPrefixOf cs then some 1 else none
  | .rawString => (after? ['"', '"', '"'] cs).bind fun rest => (rawEnd? rest).map (3 + ·)
  | .mark m => (after? m.spelling.toList cs).map fun _ => m.spelling.length
  | .templateVar => templateVarLength? cs
  | .keyword =>
    let word := cs.takeWhile isWordChar
    (Keyword.ofSpelling? (String.ofList word)).map fun _ => word.length
  | .number => numberLength? cs
  | .string => (after? ['"'] cs).bind fun rest => (stringEnd? rest).map (1 + ·)
  | .identifier => identifierLength? cs

/-- The kind of token a lexeme of the rule gives; blanks and comments give none. -/
def kind? (r : Rule) (text : String) : Option Kind :=
  match r with
  | .blanks | .comment => none
  | .newline => some .newline
  | .rawString | .string => some .string
  | .mark m => some (.mark m)
  | .templateVar => some .templateVar
  | .keyword => some ((Keyword.ofSpelling? text).elim .identifier .keyword)
  | .number => some .number
  | .identifier => some .identifier

def first? (cs : List Char) : Option (Rule × Nat) :=
  table.findSome? fun r => (r.length? cs).bind fun n => if 0 < n then some (r, n) else none

end Rule

end ChainCompiler
