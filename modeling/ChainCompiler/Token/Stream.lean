import ChainCompiler.Token.Rule

/-! The token sequence of a source text. At each lexeme the first rule that takes something decides; its token is
emitted where the lexeme starts, and the lexeme's other characters are passed over. -/

namespace ChainCompiler

structure LexError where
  char : Char
  pos : Position
  deriving DecidableEq, Repr

namespace Token

/-- The tokens of a text that starts at a place, when its first `skip` characters belong to a lexeme already
emitted. -/
def scan (pos : Position) (skip : Nat) (cs : List Char) : Except LexError (List Token) :=
  match cs, skip with
  | [], _ => .ok [eofAt pos]
  | c :: cs, skip + 1 => scan (pos.next c) skip cs
  | c :: cs, 0 =>
    match Rule.first? (c :: cs) with
    | none => .error ⟨c, pos⟩
    | some (r, n) =>
      let text := String.ofList ((c :: cs).take n)
      (scan (pos.next c) (n - 1) cs).map fun rest =>
        match r.kind? text with
        | none => rest
        | some kind => ⟨kind, text, pos⟩ :: rest

/-- The tokens of a source text, ending in the only end-of-input token. -/
def tokenize (source : String) : Except LexError (List Token) :=
  scan .start 0 source.toList

end Token

end ChainCompiler
