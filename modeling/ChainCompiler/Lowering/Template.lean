import ChainCompiler.Text.Blank
import ChainCompiler.Text.Word

/-! Prompt templates. A variable is written in one pair of braces or, with blanks around it, in two; lowering leaves
one pair, and lists the variables in the order in which they first occur. -/

namespace ChainCompiler.Template

open ChainCompiler.Text

/-- What follows a variable in two pairs of braces at the front of a text, with its name and its length. -/
def doubleBraced? (cs : List Char) : Option (List Char × Nat) := do
  guard (['\x7b', '\x7b'].isPrefixOf cs)
  let before := ((cs.drop 2).takeWhile isBlank).length
  let inner := cs.drop (2 + before)
  let n ← identifierLength? inner
  let behind := ((inner.drop n).takeWhile isBlank).length
  guard (['\x7d', '\x7d'].isPrefixOf (inner.drop (n + behind)))
  return (inner.take n, before + n + behind + 4)

/-- A text whose first `skip` characters are already dealt with, each variable in one pair of braces. -/
def normalizeFrom (skip : Nat) (cs : List Char) : List Char :=
  match cs, skip with
  | [], _ => []
  | _ :: cs, skip + 1 => normalizeFrom skip cs
  | c :: cs, 0 =>
    match doubleBraced? (c :: cs) with
    | some (name, n) => '\x7b' :: name ++ '\x7d' :: normalizeFrom (n - 1) cs
    | none => c :: normalizeFrom 0 cs

def normalize (text : String) : String := String.ofList (normalizeFrom 0 text.toList)

def braced? : List Char → Option (List Char)
  | [] => none
  | c :: cs => do
    guard (c == '\x7b')
    let n ← identifierLength? cs
    guard (['\x7d'].isPrefixOf (cs.drop n))
    return cs.take n

def occurrences : List Char → List (List Char)
  | [] => []
  | c :: cs =>
    match braced? (c :: cs) with
    | some name => name :: occurrences cs
    | none => occurrences cs

def firstOccurrences {α : Type} [BEq α] (xs : List α) : List α :=
  xs.foldl (fun seen x => if seen.contains x then seen else seen ++ [x]) []

def names (text : String) : List String :=
  (firstOccurrences (occurrences text.toList)).map String.ofList

end ChainCompiler.Template
