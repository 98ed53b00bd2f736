import ChainCompiler.Proofs.Cursor

/-! The tokens that expressions, arguments and object entries start with. None of them ends a line, closes a bracket
or separates members, so one token tells whether another member follows. -/

namespace ChainCompiler.Grammar

/-- The kinds of tokens that an expression, an argument or an object entry can start with. -/
def isOpening : Kind → Bool
  | .identifier | .keyword _ | .string | .number | .templateVar => true
  | .mark .lbrace | .mark .lbracket => true
  | _ => false

/-- The first token can start an expression. -/
def Opens (ts : List Token) : Prop := ∃ t us, ts = t :: us ∧ isOpening t.kind = true

theorem Opens.current_ne {ts : List Token} {k : Kind} (h : Opens ts) (c : Cursor) (hk : isOpening k = false) :
    (c.back ts).current.kind ≠ k := by
  obtain ⟨t, us, rfl, ht⟩ := h
  rintro rfl
  exact absurd ht (by simpa using hk)

theorem Opens.length_pos {ts : List Token} (h : Opens ts) : 0 < ts.length := by
  obtain ⟨t, us, rfl, -⟩ := h
  simp

theorem isOpening_of_isName {t : Token} (h : IsName t) : isOpening t.kind = true := by
  rcases h with h | ⟨k, h⟩ <;> simp [h, isOpening]

theorem isOpening_of_key {t : Token} {key : String} (h : Key t key) : isOpening t.kind = true := by
  cases h with
  | name h => exact isOpening_of_isName h
  | string h => simp [h, isOpening]

theorem IsName.ne_eof {t : Token} (h : IsName t) : t.kind ≠ .eof := by
  rcases h with h | ⟨k, h⟩ <;> simp [h]

theorem IsCallee.isName {t : Token} (h : IsCallee t) : IsName t := by
  rcases h with h | ⟨k, h, -⟩
  · exact .inl h
  · exact .inr ⟨k, h⟩

theorem IsCallee.ne_eof {t : Token} (h : IsCallee t) : t.kind ≠ .eof := h.isName.ne_eof

theorem Key.ne_eof {t : Token} {key : String} (h : Key t key) : t.kind ≠ .eof := by
  cases h with
  | name h => exact h.ne_eof
  | string h => simp [h]

theorem opens_of_atom {t : Token} {e : Expr} (h : Atom t e) : Opens [t] := by
  refine ⟨t, [], rfl, ?_⟩
  cases h <;> simp [isOpening, *]

theorem Bracketed.head {α : Type} {o c : Mark} {L : Phrases α} {ts : List Token} {x : α} (h : Bracketed o c L ts x) :
    ∃ t us, ts = t :: us ∧ t.kind = .mark o := by
  cases h with
  | mk ho _ _ _ => exact ⟨_, _, rfl, ho⟩

theorem opens_of_layer {E : Phrases Expr} {ts : List Token} {e : Expr} (h : Layer E ts e) : Opens ts := by
  cases h with
  | atom h => exact opens_of_atom h
  | call h _ => exact ⟨_, _, rfl, isOpening_of_isName h.isName⟩
  | list h =>
    obtain ⟨t, us, rfl, ht⟩ := h.head
    exact ⟨t, us, rfl, by simp [ht, isOpening]⟩
  | object h =>
    obtain ⟨t, us, rfl, ht⟩ := h.head
    exact ⟨t, us, rfl, by simp [ht, isOpening]⟩

theorem opens_of_value {ts : List Token} {e : Expr} (h : Value ts e) : Opens ts := by
  obtain ⟨h⟩ := h
  exact opens_of_layer h

theorem Opens.append {ts : List Token} (h : Opens ts) (us : List Token) : Opens (ts ++ us) := by
  obtain ⟨t, ts, rfl, ht⟩ := h
  exact ⟨t, ts ++ us, rfl, ht⟩

theorem opens_of_step {B : Phrases RouterBlock} {ts : List Token} {e : Expr} (h : Step B ts e) : Opens ts := by
  induction h with
  | value h => exact opens_of_value h
  | router h _ => exact (opens_of_value h).append _
  | bind _ _ _ _ ih => exact ih.append _

theorem opens_of_pipeline {B : Phrases RouterBlock} {bracketed : Bool} {ts : List Token} {es : List Expr}
    (h : Pipeline B bracketed ts es) : Opens ts := by
  obtain ⟨he, -⟩ := h
  exact (opens_of_step he).append _

/-- A keyword at the front is a component. -/
def OpensComponent (ts : List Token) : Prop := ∃ t us, ts = t :: us ∧ ∀ k, t.kind = .keyword k → k.isComponent = true

theorem OpensComponent.append {ts : List Token} (h : OpensComponent ts) (us : List Token) :
    OpensComponent (ts ++ us) := by
  obtain ⟨t, ts, rfl, ht⟩ := h
  exact ⟨t, ts ++ us, rfl, ht⟩

theorem opensComponent_of_value {ts : List Token} {e : Expr} (h : Value ts e) : OpensComponent ts := by
  obtain ⟨h⟩ := h
  cases h with
  | @atom t _ h =>
    refine ⟨t, [], rfl, fun k hk => ?_⟩
    cases h <;> simp_all
  | @call t us _ h _ =>
    refine ⟨t, us, rfl, fun k hk => ?_⟩
    rcases h with h | ⟨j, h, hj⟩ <;> simp_all
  | list h =>
    obtain ⟨t, us, rfl, ht⟩ := h.head
    exact ⟨t, us, rfl, by simp [ht]⟩
  | object h =>
    obtain ⟨t, us, rfl, ht⟩ := h.head
    exact ⟨t, us, rfl, by simp [ht]⟩

theorem opensComponent_of_step {B : Phrases RouterBlock} {ts : List Token} {e : Expr} (h : Step B ts e) :
    OpensComponent ts := by
  induction h with
  | value h => exact opensComponent_of_value h
  | router h _ => exact (opensComponent_of_value h).append _
  | bind _ _ _ _ ih => exact ih.append _

theorem opens_of_namedArgument {E : Phrases Expr} {ts : List Token} {a : Argument} (h : NamedArgument E ts a) :
    Opens ts := by
  obtain ⟨hname, -, -⟩ := h
  exact ⟨_, _, rfl, isOpening_of_isName hname⟩

theorem opens_of_entry {E : Phrases Expr} {ts : List Token} {a : String × Expr} (h : ObjectEntry E ts a) :
    Opens ts := by
  obtain ⟨hkey, -, -⟩ := h
  exact ⟨_, _, rfl, isOpening_of_key hkey⟩

/-- A name at the front is not followed by the sign that would make it the name of an argument. -/
def Unnamed (ts : List Token) : Prop := ∀ t u us, ts = t :: u :: us → IsName t → u.kind ≠ .mark .assign

theorem unnamed_of_value {ts : List Token} {e : Expr} (h : Value ts e) : Unnamed ts := by
  intro t u us hts ht
  obtain ⟨h⟩ := h
  cases h with
  | atom => cases hts
  | call _ hargs =>
    obtain ⟨o, vs, rfl, ho⟩ := hargs.head
    cases hts
    simp [ho]
  | list h =>
    obtain ⟨o, vs, rfl, ho⟩ := h.head
    cases hts
    simp [IsName, ho] at ht
  | object h =>
    obtain ⟨o, vs, rfl, ho⟩ := h.head
    cases hts
    simp [IsName, ho] at ht

def isClosing : Mark → Bool
  | .rparen | .rbracket | .rbrace => true
  | _ => false

end ChainCompiler.Grammar
