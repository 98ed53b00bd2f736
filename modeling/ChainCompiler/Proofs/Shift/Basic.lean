import ChainCompiler.Parser.Statement
import ChainCompiler.Proofs.Cursor

/-! Texts that are moved down by some lines. A parser tracks another one when it does the same on the moved text: it
reads the same values, or fails with the same error, at the moved place. Tracking also bounds what is left to read,
since the two parsers may count down from different bounds. -/

namespace ChainCompiler

def Position.down (k : Nat) (p : Position) : Position := ⟨p.line + k, p.column⟩

def Token.down (k : Nat) (t : Token) : Token := { t with pos := t.pos.down k }

@[simp] theorem Token.kind_down (k : Nat) (t : Token) : (t.down k).kind = t.kind := rfl

@[simp] theorem Token.text_down (k : Nat) (t : Token) : (t.down k).text = t.text := rfl

def Cursor.down (k : Nat) (c : Cursor) : Cursor := ⟨c.current.down k, c.rest.map (Token.down k)⟩

def ParseError.down (k : Nat) : ParseError → ParseError
  | .unexpected want found => .unexpected want (found.down k)
  | .duplicate what name place => .duplicate what name (place.down k)

def LexError.down (k : Nat) (e : LexError) : LexError := { e with pos := e.pos.down k }

def SourceError.down (k : Nat) : SourceError → SourceError
  | .lex e => .lex (e.down k)
  | .parse e => .parse (e.down k)

def Statement.down (k : Nat) (s : Statement) : Statement := { s with line := s.line + k }

namespace Cursor

@[simp] theorem current_down (k : Nat) (c : Cursor) : (c.down k).current = c.current.down k := rfl

theorem advance_down (k : Nat) (c : Cursor) : (c.down k).advance = c.advance.down k := by
  obtain ⟨t, rest⟩ := c
  by_cases ht : t.kind = .eof
  · simp [advance, down, ht]
  · cases rest <;> simp [advance, down, ht]

theorem skipNewlines_down (k : Nat) (c : Cursor) : (c.down k).skipNewlines = c.skipNewlines.down k := by
  obtain ⟨t, rest⟩ := c
  induction rest generalizing t with
  | nil => rfl
  | cons u us ih =>
    by_cases ht : t.kind = .newline
    · simpa [skipNewlines, skipFrom, down, ht] using ih u
    · simp [skipNewlines, skipFrom, down, ht]

theorem peekKind_down (k : Nat) (c : Cursor) : (c.down k).peekKind = c.peekKind := by
  obtain ⟨t, rest⟩ := c
  cases rest <;> rfl

theorem length_rest_advance {c : Cursor} (hc : c.Closed) (hk : c.current.kind ≠ .eof) :
    c.advance.rest.length + 1 = c.rest.length := by
  have h := congrArg (fun d => d.rest.length) (back_advance hc hk)
  simp only [length_rest_back, List.length_singleton] at h
  omega

/-- At the last token of a closed place the input ends. -/
theorem current_eof_of_length {c : Cursor} (hc : c.Closed) (h : c.rest.length = 0) : c.current.kind = .eof := by
  apply Decidable.byContradiction
  intro hk
  have := length_rest_advance hc hk
  omega

theorem length_rest_skipNewlines (c : Cursor) : c.skipNewlines.rest.length ≤ c.rest.length := by
  obtain ⟨nl, -, hback⟩ := exists_back_skipNewlines c
  have h := congrArg (fun d => d.rest.length) hback
  simp only [length_rest_back] at h
  omega

end Cursor

namespace Parser

variable {α β : Type}

/-- An outcome at the place further down, when the value that is read changes by `g`. -/
def moved (k : Nat) (g : α → α) : Except ParseError (α × Cursor) → Except ParseError (α × Cursor)
  | .ok (a, c) => .ok (g a, c.down k)
  | .error e => .error (e.down k)

/-- From the place `k` lines further down, `Q` does what `P` does from here, and `P` passes at least `w` tokens. -/
structure Tracks (k w : Nat) (g : α → α) (P Q : Parser α) (c : Cursor) : Prop where
  eq : Q (c.down k) = moved k g (P c)
  ahead : ∀ ⦃a c'⦄, P c = .ok (a, c') → c'.Closed ∧ c'.rest.length + w ≤ c.rest.length

namespace Tracks

variable {k u w : Nat} {g : α → α} {h : β → β} {c : Cursor}

theorem bind {P Q : Parser α} {f f' : α → Parser β} (hP : Tracks k w g P Q c)
    (hf : ∀ a c', c'.Closed → c'.rest.length + w ≤ c.rest.length → Tracks k (u - w) h (f a) (f' (g a)) c') :
    Tracks k u h (P >>= f) (Q >>= f') c := by
  cases hp : P c with
  | error e =>
    have hq : Q (c.down k) = .error (e.down k) := by rw [hP.eq, hp, moved]
    refine ⟨by rw [bind_of_error f hp, bind_of_error f' hq, moved], fun b c' hb => ?_⟩
    rw [bind_of_error f hp] at hb
    cases hb
  | ok x =>
    obtain ⟨a, c₁⟩ := x
    obtain ⟨hc₁, hlen₁⟩ := hP.ahead hp
    have hq : Q (c.down k) = .ok (g a, c₁.down k) := by rw [hP.eq, hp, moved]
    have hnext := hf a c₁ hc₁ hlen₁
    refine ⟨by rw [bind_of_ok f hp, bind_of_ok f' hq, hnext.eq], fun b c' hb => ?_⟩
    rw [bind_of_ok f hp] at hb
    obtain ⟨hc', hlen⟩ := hnext.ahead hb
    exact ⟨hc', by omega⟩

theorem weaken {P Q : Parser α} (hP : Tracks k w g P Q c) (hle : u ≤ w) : Tracks k u g P Q c := by
  refine ⟨hP.eq, fun a c' ha => ?_⟩
  obtain ⟨hc', hlen⟩ := hP.ahead ha
  exact ⟨hc', by omega⟩

/-- Parsers that read nothing. -/
theorem stay {P Q : Parser α} {a : α} (hc : c.Closed) (hp : P c = .ok (a, c))
    (hq : Q (c.down k) = .ok (g a, c.down k)) : Tracks k 0 g P Q c := by
  refine ⟨by rw [hq, hp, moved], fun b c' hb => ?_⟩
  rw [hp] at hb
  cases hb
  exact ⟨hc, Nat.le_refl _⟩

theorem pure (hc : c.Closed) (a : α) : Tracks k 0 g (pure a) (pure (g a)) c := stay hc rfl rfl

theorem fail (want : Want) : Tracks k w g (fail want) (fail want) c := ⟨rfl, fun _ _ hb => by cases hb⟩

theorem fail_bind (want : Want) (f f' : α → Parser β) :
    Tracks k w h (Parser.fail want >>= f) (Parser.fail want >>= f') c :=
  ⟨rfl, fun _ _ hb => by cases hb⟩

theorem duplicate_bind (what : Once) (name : String) (place : Token) (f f' : α → Parser β) :
    Tracks k w h (Parser.duplicate what name place >>= f) (Parser.duplicate what name (place.down k) >>= f') c :=
  ⟨rfl, fun _ _ hb => by cases hb⟩

theorem current {f f' : Token → Parser β} (hf : Tracks k w h (f c.current) (f' (c.current.down k)) c) :
    Tracks k w h (current >>= f) (current >>= f') c :=
  ⟨hf.eq, hf.ahead⟩

theorem kind {f f' : Kind → Parser β} (hf : Tracks k w h (f c.current.kind) (f' c.current.kind) c) :
    Tracks k w h (kind >>= f) (kind >>= f') c :=
  ⟨hf.eq, hf.ahead⟩

theorem isAt {kind : Kind} {f f' : Bool → Parser β} (hyes : c.current.kind = kind → Tracks k w h (f true) (f' true) c)
    (hno : c.current.kind ≠ kind → Tracks k w h (f false) (f' false) c) :
    Tracks k w h (isAt kind >>= f) (isAt kind >>= f') c := by
  have hboth : Tracks k w h (f (c.current.kind == kind)) (f' (c.current.kind == kind)) c := by
    by_cases hk : c.current.kind = kind
    · rw [beq_iff_eq.2 hk]
      exact hyes hk
    · rw [beq_eq_false_iff_ne.2 hk]
      exact hno hk
  exact ⟨hboth.eq, hboth.ahead⟩

/-- The common case of a choice by the current token. -/
theorem ifAt {kind : Kind} {A A' B B' : Parser β} (hyes : c.current.kind = kind → Tracks k w h A A' c)
    (hno : c.current.kind ≠ kind → Tracks k w h B B' c) :
    Tracks k w h (Parser.isAt kind >>= fun b => if b then A else B)
      (Parser.isAt kind >>= fun b => if b then A' else B') c :=
  isAt hyes hno

theorem next (hc : c.Closed) (hk : c.current.kind ≠ .eof) : Tracks k 1 (Token.down k) next next c := by
  refine ⟨?_, fun t c' ht => ?_⟩
  · simp only [Parser.next, Cursor.current_down, Cursor.advance_down, moved]
  · cases ht
    exact ⟨Cursor.closed_advance hc hk, Nat.le_of_eq (Cursor.length_rest_advance hc hk)⟩

theorem skipNewlines (hc : c.Closed) : Tracks k 0 (fun u => u) skipNewlines skipNewlines c := by
  refine ⟨?_, fun u c' hu => ?_⟩
  · simp only [Parser.skipNewlines, Cursor.skipNewlines_down, moved]
  · cases hu
    exact ⟨Cursor.closed_skipNewlines hc, Cursor.length_rest_skipNewlines c⟩

/-- A parser that takes the current token if it is of some kind, but never an end of input. -/
theorem take (p : Kind → Prop) [DecidablePred p] (value : Token → α) (want : Want) (hc : c.Closed) (hp : ¬ p .eof)
    (hvalue : value (c.current.down k) = g (value c.current)) :
    let P : Parser α := fun c =>
      if p c.current.kind then .ok (value c.current, c.advance) else .error (.unexpected want c.current)
    Tracks k 1 g P P c := by
  intro P
  by_cases hk : p c.current.kind
  · have hne : c.current.kind ≠ .eof := fun he => hp (he ▸ hk)
    refine ⟨by simp [P, hk, hvalue, moved, Cursor.advance_down], fun a c' ha => ?_⟩
    simp only [P, hk, if_true] at ha
    cases ha
    exact ⟨Cursor.closed_advance hc hne, Nat.le_of_eq (Cursor.length_rest_advance hc hne)⟩
  · refine ⟨by simp [P, hk, moved, ParseError.down], fun a c' ha => ?_⟩
    simp only [P, hk, if_false] at ha
    cases ha

theorem expect {kind : Kind} (want : Want) (hc : c.Closed) (hkind : kind ≠ .eof) :
    Tracks k 1 (Token.down k) (expect kind want) (expect kind want) c :=
  take (· = kind) (fun t => t) want hc hkind.symm rfl

theorem expectName (want : Want) (hc : c.Closed) : Tracks k 1 (fun s => s) (expectName want) (expectName want) c :=
  take (isNameKind · = true) Token.text want hc (by decide) rfl

theorem expectIdentifier (want : Want) (hc : c.Closed) :
    Tracks k 1 (fun s => s) (expectIdentifier want) (expectIdentifier want) c :=
  take (· = .identifier) Token.text want hc (by decide) rfl

theorem comma (hc : c.Closed) : Tracks k 0 (fun b => b) comma comma c := by
  by_cases hk : c.current.kind = .mark .comma
  · have hne : c.current.kind ≠ .eof := by simp [hk]
    refine ⟨by simp [Parser.comma, hk, moved, Cursor.advance_down, Cursor.skipNewlines_down], fun b c' hb => ?_⟩
    simp only [Parser.comma, hk, if_true] at hb
    cases hb
    have hadvance := Cursor.length_rest_advance hc hne
    have hskip := Cursor.length_rest_skipNewlines c.advance
    exact ⟨Cursor.closed_skipNewlines (Cursor.closed_advance hc hne), by omega⟩
  · exact stay hc (by simp [Parser.comma, hk]; rfl) (by simp [Parser.comma, hk])

theorem atNamed (hc : c.Closed) : Tracks k 0 (fun b => b) atNamed atNamed c :=
  stay hc rfl (by simp [Parser.atNamed, Cursor.peekKind_down])

end Tracks

end Parser

end ChainCompiler
