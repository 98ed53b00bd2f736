/-! Words: runs of ASCII letters, digits and underscores. A word that does not start with a digit is an
identifier. -/

namespace ChainCompiler.Text

def isWordStart (c : Char) : Bool := c.isAlpha || c == '_'

def isWordChar (c : Char) : Bool := c.isAlphanum || c == '_'

theorem isWordChar_of_start {c : Char} (h : isWordStart c = true) : isWordChar c = true := by
  simp only [isWordStart, isWordChar, Char.isAlphanum, Bool.or_eq_true] at h ⊢
  rcases h with h | h
  · exact Or.inl (Or.inl h)
  · exact Or.inr h

def isIdentifier : List Char → Bool
  | [] => false
  | c :: cs => isWordStart c && cs.all isWordChar

def identifierLength? : List Char → Option Nat
  | [] => none
  | c :: cs => if isWordStart c then some ((cs.takeWhile isWordChar).length + 1) else none

end ChainCompiler.Text
