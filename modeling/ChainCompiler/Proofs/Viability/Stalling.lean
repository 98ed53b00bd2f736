import ChainCompiler.Parser.Pipeline
import ChainCompiler.Proofs.Soundness.Expr
import ChainCompiler.Proofs.Viability.Completion
import ChainCompiler.Proofs.Viability.Nesting

/-! Where a parser fails at an unexpected token. What it read before that token is put together like the parser itself:
a sequence fails in its first part, or in its second part after what the first one read. -/

namespace ChainCompiler

namespace Cursor

/-- From here on, the token `t` comes right after the tokens `ts`. -/
def StopsAt (c : Cursor) (ts : List Token) (t : Token) : Prop := ∃ rest, c.tokens = ts ++ t :: rest

theorem stopsAt_current (c : Cursor) : c.StopsAt [] c.current := ⟨c.rest, rfl⟩

theorem StopsAt.back {c : Cursor} {ts : List Token} {t : Token} (us : List Token) (h : c.StopsAt ts t) :
    (c.back us).StopsAt (us ++ ts) t := by
  obtain ⟨rest, hrest⟩ := h
  exact ⟨rest, by rw [tokens_back, hrest, List.append_assoc]⟩

end Cursor

namespace Parser

open Grammar

variable {α β : Type}

theorem bind_eq_error {P : Parser α} {f : α → Parser β} {c : Cursor} {e : ParseError} :
    (P >>= f) c = .error e ↔ P c = .error e ∨ ∃ a c₁, P c = .ok (a, c₁) ∧ f a c₁ = .error e := by
  cases h : P c with
  | error e' =>
    rw [bind_of_error f h]
    simp
  | ok x =>
    rw [bind_of_ok f (show P c = .ok (x.1, x.2) from h)]
    constructor
    · exact fun hf => .inr ⟨x.1, x.2, rfl, hf⟩
    · rintro (hx | ⟨a, c₁, hx, hf⟩)
      · cases hx
      · cases hx
        exact hf

/-- Where the parser fails at an unexpected token, the tokens before that one have the property `G`. -/
def Stalls (P : Parser α) (G : List Token → Prop) : Prop :=
  ∀ ⦃c : Cursor⦄ ⦃want : Want⦄ ⦃t : Token⦄, c.Closed → P c = .error (.unexpected want t) → ∃ ts, c.StopsAt ts t ∧ G ts

namespace Stalls

variable {P : Parser α} {f : α → Parser β} {G H : List Token → Prop}

theorem imp (h : Stalls P G) (hGH : ∀ ts, G ts → H ts) : Stalls P H := by
  intro c want t hc hp
  obtain ⟨ts, hstops, hG⟩ := h hc hp
  exact ⟨ts, hstops, hGH ts hG⟩

/-- A parser that fails only at the token where it starts. -/
theorem here (h : ∀ c want t, P c = .error (.unexpected want t) → t = c.current) (hG : G []) : Stalls P G := by
  intro c want t _ hp
  obtain rfl := h c want t hp
  exact ⟨[], c.stopsAt_current, hG⟩

theorem fail {want : Want} (hG : G []) : Stalls (Parser.fail want : Parser α) G := by
  refine here (fun c want' t hp => ?_) hG
  cases hp
  rfl

theorem fail_bind {want : Want} (hG : G []) : Stalls (Parser.fail want >>= f) G := by
  refine here (fun c want' t hp => ?_) hG
  cases hp
  rfl

theorem duplicate_bind {what : Once} {name : String} {place : Token} :
    Stalls (Parser.duplicate what name place >>= f) G :=
  fun _ _ _ _ hp => nomatch hp

theorem expect {k : Kind} {want : Want} (hG : G []) : Stalls (Parser.expect k want) G := by
  refine here (fun c want' t hp => ?_) hG
  unfold Parser.expect at hp
  split at hp
  · cases hp
  · cases hp
    rfl

theorem expectName {want : Want} (hG : G []) : Stalls (Parser.expectName want) G := by
  refine here (fun c want' t hp => ?_) hG
  unfold Parser.expectName at hp
  split at hp
  · cases hp
  · cases hp
    rfl

theorem expectIdentifier {want : Want} (hG : G []) : Stalls (Parser.expectIdentifier want) G := by
  refine here (fun c want' t hp => ?_) hG
  unfold Parser.expectIdentifier at hp
  split at hp
  · cases hp
  · cases hp
    rfl

theorem pure {a : α} : Stalls (pure a : Parser α) G := fun _ _ _ _ hp => nomatch hp

theorem skipNewlines : Stalls Parser.skipNewlines G := fun _ _ _ _ hp => nomatch hp

theorem joinLines : Stalls Parser.joinLines G := by
  intro c want t _ hp
  unfold Parser.joinLines at hp
  split at hp <;> cases hp

/-- Where lines may be broken. -/
theorem ofBreak {Q : Parser Unit} (h : Stalls Q G) {bracketed : Bool} :
    Stalls (if bracketed then Q else Pure.pure ()) G := by
  cases bracketed with
  | true => exact h
  | false => exact .pure

theorem comma : Stalls Parser.comma G := by
  intro c want t _ hp
  unfold Parser.comma at hp
  split at hp <;> cases hp

/-- A sequence stalls in its first part, or in its second part behind what the first one read. -/
theorem bind {L : Phrases α} (hreads : Reads P L) (hP : Stalls P G)
    (hf : ∀ us a, L us a → Stalls (f a) fun ts => G (us ++ ts)) : Stalls (P >>= f) G := by
  intro c want t hc hp
  rcases bind_eq_error.1 hp with hfirst | ⟨a, c₁, h₁, hsecond⟩
  · exact hP hc hfirst
  · obtain ⟨hc₁, us, rfl, ha⟩ := hreads hc h₁
    obtain ⟨ts, hstops, hG⟩ := hf us a ha hc₁ hsecond
    exact ⟨us ++ ts, hstops.back us, hG⟩

/-- The parser goes on after the current token. -/
theorem next_bind {f : Token → Parser β} {c : Cursor} (hk : c.current.kind ≠ .eof)
    (hf : Stalls (f c.current) fun ts => G (c.current :: ts)) (hc : c.Closed) {want : Want} {t : Token}
    (hp : (next >>= f) c = .error (.unexpected want t)) : ∃ ts, c.StopsAt ts t ∧ G ts := by
  have hp : f c.current c.advance = .error (.unexpected want t) := hp
  obtain ⟨ts, hstops, hG⟩ := hf (Cursor.closed_advance hc hk) hp
  refine ⟨c.current :: ts, ?_, hG⟩
  have hback := hstops.back [c.current]
  rwa [Cursor.back_advance hc hk] at hback

/-- A parser that only looks at what comes next does not stall. -/
theorem peek {γ : Type} {Q : Parser γ} {f : γ → Parser β} (hQ : ∀ c, ∃ a, Q c = .ok (a, c))
    (h : ∀ a, Stalls (f a) G) : Stalls (Q >>= f) G := by
  intro c want t hc hp
  obtain ⟨a, ha⟩ := hQ c
  rw [bind_of_ok f ha] at hp
  exact h a hc hp

/-- What follows a token of the kind is read after it; without such a token, the parser does something else. -/
theorem ifAt {k : Kind} (hk : k ≠ .eof) {f : Token → Parser β} {Q : Parser β}
    (hf : ∀ t, t.kind = k → Stalls (f t) fun ts => G (t :: ts)) (hQ : Stalls Q G) :
    Stalls (Parser.isAt k >>= fun b => if b then next >>= f else Q) G := by
  intro c want t hc hp
  rw [isAt_bind] at hp
  split at hp
  · next hat =>
    have hkind : c.current.kind = k := by simpa using hat
    exact next_bind (hkind ▸ hk) (hf _ hkind) hc hp
  · exact hQ hc hp

theorem keySeparator (hG : G []) : Stalls Parser.keySeparator G := by
  refine here (fun c want t hp => ?_) hG
  rw [Parser.keySeparator, isAt_bind, isAt_bind] at hp
  split at hp
  · cases hp
  · cases hp
    rfl

end Stalls

/-- The tokens can be completed to a phrase of `L`, unless some open list has a name twice. In front of them, brackets
may be open as `A` says. -/
def Completable (A : Nesting → Prop) (L : List Token → Prop) (ts : List Token) : Prop :=
  ∀ n : Nesting, A n → (n.reads ts).Distinct → Viable L ts

/-- The same, for tokens that do to these brackets what `N` says. -/
def Begins (N : List Token → Prop) (A : Nesting → Prop) (L : List Token → Prop) (ts : List Token) : Prop :=
  N ts ∧ Completable A L ts

namespace Completable

variable {A A' : Nesting → Prop} {L L' : List Token → Prop} {ts : List Token}

theorem of_viable (h : Viable L ts) : Completable A L ts := fun _ _ _ => h

/-- What was read before the tokens counts for the brackets, and their completion completes the whole. -/
theorem behind (h : Completable A L ts) (us : List Token) (hA : ∀ n, A' n → A (n.reads us))
    (hL : ∀ vs, L vs → L' (us ++ vs)) : Completable A' L' (us ++ ts) := by
  intro n hn hdistinct
  rw [Nesting.reads_append] at hdistinct
  exact (h _ (hA n hn) hdistinct).imp us hL

/-- The same, when tokens of the given kinds are still missing then. -/
theorem behind_then (h : Completable A L ts) (us : List Token) (hA : ∀ n, A' n → A (n.reads us)) (ks : List Kind)
    (hks : ks.all isSpellable = true) (hL : ∀ vs ws, L vs → ws.map Token.kind = ks → L' (us ++ (vs ++ ws))) :
    Completable A' L' (us ++ ts) := by
  intro n hn hdistinct
  rw [Nesting.reads_append] at hdistinct
  exact (h _ (hA n hn) hdistinct).extend us ks hks hL

end Completable

end Parser

end ChainCompiler
