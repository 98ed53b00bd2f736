/-! The fourteen reserved words of the language. Seven of them name components that a chain is built from. -/

namespace ChainCompiler

inductive Keyword where
  | defKw | chainKw | schemaKw | withKw | memoryKw | caseKw | defaultKw
  | input | stringOutput | builtin | model | prompt | tool | router
  deriving DecidableEq, Repr, Inhabited

namespace Keyword

def all : List Keyword :=
  [.defKw, .chainKw, .schemaKw, .withKw, .memoryKw, .caseKw, .defaultKw,
    .input, .stringOutput, .builtin, .model, .prompt, .tool, .router]

theorem mem_all (k : Keyword) : k ∈ all := by cases k <;> decide

def spelling : Keyword → String
  | .defKw => "def"
  | .chainKw => "chain"
  | .schemaKw => "schema"
  | .withKw => "with"
  | .memoryKw => "memory"
  | .caseKw => "case"
  | .defaultKw => "default"
  | .input => "Input"
  | .stringOutput => "StringOutput"
  | .builtin => "Builtin"
  | .model => "Model"
  | .prompt => "Prompt"
  | .tool => "Tool"
  | .router => "Router"

def ofSpelling? (word : String) : Option Keyword := all.find? (·.spelling == word)

/-- A component can stand in an expression, the other keywords cannot. -/
def isComponent : Keyword → Bool
  | .input | .stringOutput | .builtin | .model | .prompt | .tool | .router => true
  | _ => false

theorem spelling_injective {j k : Keyword} (h : j.spelling = k.spelling) : j = k := by
  cases j <;> cases k <;> first | rfl | (exact absurd h (by decide))

theorem ofSpelling?_spelling (k : Keyword) : ofSpelling? k.spelling = some k := by
  cases k <;> decide

theorem spelling_of_ofSpelling? {word : String} {k : Keyword} (h : ofSpelling? word = some k) :
    k.spelling = word := by
  have := List.find?_some h
  simpa using this

end Keyword

end ChainCompiler
