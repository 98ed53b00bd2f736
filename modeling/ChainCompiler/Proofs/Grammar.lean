import ChainCompiler.Number.Reader
import ChainCompiler.Program.Basic
import ChainCompiler.Program.Literal
import ChainCompiler.Token.Basic

/-! The grammar of programs, as relations between token sequences and the values they stand for. A rule that
nests takes the language of what is nested in it, and two rules tie these knots: `Value` for expressions and
`Block` for router blocks. No rule looks past the tokens that it derives. -/

namespace ChainCompiler.Grammar

/-- Which token sequences stand for which values. -/
abbrev Phrases (α : Type) := List Token → α → Prop

def Newlines (ts : List Token) : Prop := ∀ t ∈ ts, t.kind = .newline

@[simp] theorem newlines_nil : Newlines [] := by simp [Newlines]

theorem Newlines.append {nl nl' : List Token} (h : Newlines nl) (h' : Newlines nl') : Newlines (nl ++ nl') :=
  fun t ht => (List.mem_append.1 ht).elim (h t) (h' t)

/-- Identifiers and all keywords are names. -/
def IsName (t : Token) : Prop := t.kind = .identifier ∨ ∃ k, t.kind = .keyword k

/-- Identifiers and components can be called. -/
def IsCallee (t : Token) : Prop := t.kind = .identifier ∨ ∃ k, t.kind = .keyword k ∧ k.isComponent = true

inductive Atom : Token → Expr → Prop
  | true {t} : t.kind = .identifier → t.text = "true" → Atom t (.boolean true)
  | false {t} : t.kind = .identifier → t.text = "false" → Atom t (.boolean false)
  | identifier {t} : t.kind = .identifier → t.text ≠ "true" → t.text ≠ "false" → Atom t (.identifier t.text)
  | component {t k} : t.kind = .keyword k → k.isComponent = Bool.true → Atom t (.identifier t.text)
  | string {t} : t.kind = .string → Atom t (.string (Literal.unquote t.text))
  | number {t v} : t.kind = .number → Double.read? t.text = some v → Atom t (.number v)
  | templateVar {t} : t.kind = .templateVar → Atom t (.templateVar (Literal.variableName t.text))

/-- Members with commas between them. Newlines may follow a member or a comma, and a comma the last member. -/
inductive Members {α : Type} (M : Phrases α) : Phrases (List α)
  | nil : Members M [] []
  | last {ts nl x} : M ts x → Newlines nl → Members M (ts ++ nl) [x]
  | cons {ts nl comma nl' us x xs} :
      M ts x → Newlines nl → comma.kind = .mark .comma → Newlines nl' → Members M us xs →
      Members M (ts ++ (nl ++ comma :: (nl' ++ us))) (x :: xs)

/-- What stands between two brackets, with newlines after the opening one. -/
inductive Bracketed {α : Type} (opening closing : Mark) (L : Phrases α) : Phrases α
  | mk {o nl ts c x} :
      o.kind = .mark opening → Newlines nl → L ts x → c.kind = .mark closing →
      Bracketed opening closing L (o :: (nl ++ (ts ++ [c]))) x

inductive NamedArgument (E : Phrases Expr) : Phrases Argument
  | mk {name assign ts e} :
      IsName name → assign.kind = .mark .assign → E ts e →
      NamedArgument E (name :: assign :: ts) ⟨some name.text, e⟩

/-- Named arguments with distinct names, or a single argument without a name, which a comma may follow. -/
inductive Arguments (E : Phrases Expr) : Phrases (List Argument)
  | named {ts args} :
      Members (NamedArgument E) ts args → (args.map Argument.name).Nodup → Arguments E ts args
  | sole {ts nl e} : E ts e → Newlines nl → Arguments E (ts ++ nl) [⟨none, e⟩]
  | soleComma {ts nl comma nl' e} :
      E ts e → Newlines nl → comma.kind = .mark .comma → Newlines nl' →
      Arguments E (ts ++ (nl ++ comma :: nl')) [⟨none, e⟩]

inductive Key : Token → String → Prop
  | name {t} : IsName t → Key t t.text
  | string {t} : t.kind = .string → Key t (Literal.unquote t.text)

inductive ObjectEntry (E : Phrases Expr) : Phrases (String × Expr)
  | mk {t key sep ts e} :
      Key t key → sep.kind = .mark .colon ∨ sep.kind = .mark .assign → E ts e → ObjectEntry E (t :: sep :: ts) (key, e)

inductive Entries (E : Phrases Expr) : Phrases (List (String × Expr))
  | mk {ts entries} : Members (ObjectEntry E) ts entries → (entries.map Prod.fst).Nodup → Entries E ts entries

/-- An expression, given the language of the expressions inside it. -/
inductive Layer (E : Phrases Expr) : Phrases Expr
  | atom {t e} : Atom t e → Layer E [t] e
  | call {t ts args} :
      IsCallee t → Bracketed .lparen .rparen (Arguments E) ts args → Layer E (t :: ts) (.call ⟨t.text, args, none⟩)
  | list {ts items} : Bracketed .lbracket .rbracket (Members E) ts items → Layer E ts (.list items)
  | object {ts entries} : Bracketed .lbrace .rbrace (Entries E) ts entries → Layer E ts (.object entries)

inductive Value : Phrases Expr
  | of {ts e} : Layer Value ts e → Value ts e

abbrev Args : Phrases (List Argument) := Bracketed .lparen .rparen (Arguments Value)

/-- One step of a pipeline: an expression or a call of the router with its block, then modifiers, the first one
innermost. -/
inductive Step (B : Phrases RouterBlock) : Phrases Expr
  | value {ts e} : Value ts e → Step B ts e
  | router {ts us args b} :
      Value ts (.call ⟨Keyword.router.spelling, args, none⟩) → B us b →
      Step B (ts ++ us) (.call ⟨Keyword.router.spelling, args, some b⟩)
  | bind {ts e bind name us args} :
      Step B ts e → bind.kind = .mark .bind → name.kind = .identifier → Args us args →
      Step B (ts ++ bind :: name :: us) (.bind e ⟨name.text, args, none⟩)

/-- Where lines may be broken, newlines; elsewhere nothing. -/
def Break (bracketed : Bool) (ts : List Token) : Prop := Newlines ts ∧ (bracketed = false → ts = [])

inductive MoreSteps (B : Phrases RouterBlock) (bracketed : Bool) : Phrases (List Expr)
  | nil : MoreSteps B bracketed [] []
  | cons {nl pipe nl' ts us e es} :
      Break bracketed nl → pipe.kind = .mark .pipe → Break bracketed nl' → Step B ts e →
      MoreSteps B bracketed us es → MoreSteps B bracketed (nl ++ pipe :: (nl' ++ (ts ++ us))) (e :: es)

inductive Pipeline (B : Phrases RouterBlock) (bracketed : Bool) : Phrases (List Expr)
  | mk {ts us e es} : Step B ts e → MoreSteps B bracketed us es → Pipeline B bracketed (ts ++ us) (e :: es)

/-- At most one comma, then newlines. -/
inductive ArmEnd : List Token → Prop
  | plain {nl} : Newlines nl → ArmEnd nl
  | comma {t nl} : t.kind = .mark .comma → Newlines nl → ArmEnd (t :: nl)

inductive Arms (B : Phrases RouterBlock) : Phrases RouterBlock
  | nil : Arms B [] ⟨[], none⟩
  | case {t ts arrow us vs ws condition action cases fallback} :
      t.kind = .keyword .caseKw → Value ts condition → arrow.kind = .mark .arrow → Pipeline B true us action →
      ArmEnd vs → Arms B ws ⟨cases, fallback⟩ →
      Arms B (t :: (ts ++ arrow :: (us ++ (vs ++ ws)))) ⟨(condition, action) :: cases, fallback⟩
  | fallback {t arrow us vs ws action cases} :
      t.kind = .keyword .defaultKw → arrow.kind = .mark .arrow → Pipeline B true us action →
      ArmEnd vs → Arms B ws ⟨cases, none⟩ →
      Arms B (t :: arrow :: (us ++ (vs ++ ws))) ⟨cases, some action⟩

inductive Block : Phrases RouterBlock
  | of {ts b} : Bracketed .lbrace .rbrace (Arms Block) ts b → Block ts b

/-- What may end a schema field: nothing, or a comma or newline with more newlines after it. -/
inductive FieldEnd : List Token → Prop
  | nil : FieldEnd []
  | cons {t nl} : t.kind = .mark .comma ∨ t.kind = .newline → Newlines nl → FieldEnd (t :: nl)

inductive Fields : Phrases (List (String × String))
  | nil : Fields [] []
  | cons {name colon type us vs fs} :
      name.kind = .identifier → colon.kind = .mark .colon → type.kind = .identifier → FieldEnd us → Fields vs fs →
      Fields (name :: colon :: type :: (us ++ vs)) ((name.text, type.text) :: fs)

/-- A chain body in braces, after the call that gives its context. -/
inductive ContextBody : Phrases (List Expr × Option Call)
  | mk {memory ts args o nl us nl' c steps} :
      memory.kind = .keyword .memoryKw → Args ts args → o.kind = .mark .lbrace → Newlines nl →
      Pipeline Block true us steps → Newlines nl' → c.kind = .mark .rbrace →
      ContextBody (memory :: (ts ++ o :: (nl ++ (us ++ (nl' ++ [c])))))
        (steps, some ⟨Keyword.memoryKw.spelling, args, none⟩)

/-- Statements. The line of a statement is that of its first token. -/
inductive Sentence : Phrases Statement
  | definition {t name assign ts value} :
      t.kind = .keyword .defKw → name.kind = .identifier → assign.kind = .mark .assign → Step Block ts value →
      Sentence (t :: name :: assign :: ts) ⟨name.text, t.pos.line, .definition value⟩
  | chain {t name assign ts steps} :
      t.kind = .keyword .chainKw → name.kind = .identifier → assign.kind = .mark .assign →
      Pipeline Block false ts steps →
      Sentence (t :: name :: assign :: ts) ⟨name.text, t.pos.line, .chain steps none⟩
  | chainWith {t name assign w ts steps context} :
      t.kind = .keyword .chainKw → name.kind = .identifier → assign.kind = .mark .assign →
      w.kind = .keyword .withKw → ContextBody ts (steps, context) →
      Sentence (t :: name :: assign :: w :: ts) ⟨name.text, t.pos.line, .chain steps context⟩
  | schema {t name ts fields} :
      t.kind = .keyword .schemaKw → name.kind = .identifier → Bracketed .lbrace .rbrace Fields ts fields →
      Sentence (t :: name :: ts) ⟨name.text, t.pos.line, .schema fields⟩

/-- Statements and newlines in any order. -/
inductive Sentences : Phrases Program
  | nil : Sentences [] []
  | newline {t ts p} : t.kind = .newline → Sentences ts p → Sentences (t :: ts) p
  | cons {ts s us p} : Sentence ts s → Sentences us p → Sentences (ts ++ us) (s :: p)

/-- Whole programs, up to the end of input. -/
inductive Derives : Phrases Program
  | mk {ts eof p} : Sentences ts p → eof.kind = .eof → Derives (ts ++ [eof]) p

end ChainCompiler.Grammar
