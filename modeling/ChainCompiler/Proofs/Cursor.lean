import ChainCompiler.Parser.Cursor
import ChainCompiler.Proofs.Grammar

/-! Moves of a cursor. Every place is described from the one that is reached later: `c.back ts` is the place from
which reading the tokens `ts` leads to `c`. A cursor is closed when an end of input lies ahead of it, which every
cursor over a whole token sequence is; on closed cursors no move is cut short. -/

namespace ChainCompiler

open Grammar (Newlines)

namespace Cursor

def tokens (c : Cursor) : List Token := c.current :: c.rest

def back (c : Cursor) : List Token → Cursor
  | [] => c
  | t :: ts => ⟨t, ts ++ c.tokens⟩

@[simp] theorem back_nil (c : Cursor) : c.back [] = c := rfl

@[simp] theorem current_back_cons (c : Cursor) (t : Token) (ts : List Token) : (c.back (t :: ts)).current = t := rfl

@[simp] theorem tokens_back (c : Cursor) (ts : List Token) : (c.back ts).tokens = ts ++ c.tokens := by
  cases ts <;> rfl

theorem ext_tokens {c d : Cursor} (h : c.tokens = d.tokens) : c = d := by
  cases c; cases d
  simpa [tokens] using h

theorem back_append (c : Cursor) (ts us : List Token) : c.back (ts ++ us) = (c.back us).back ts :=
  ext_tokens (by simp)

theorem back_cons (c : Cursor) (t : Token) (ts : List Token) : c.back (t :: ts) = (c.back ts).back [t] :=
  back_append c [t] ts

theorem length_rest_back (c : Cursor) (ts : List Token) : (c.back ts).rest.length = ts.length + c.rest.length := by
  have h := congrArg List.length (tokens_back c ts)
  simp only [tokens, List.length_cons, List.length_append] at h
  omega

/-- An end of input lies ahead. -/
def Closed (c : Cursor) : Prop := ∃ t ∈ c.tokens, t.kind = .eof

theorem closed_of_back {c : Cursor} (ts : List Token) (h : (c.back ts).Closed) (hts : ∀ t ∈ ts, t.kind ≠ .eof) :
    c.Closed := by
  obtain ⟨t, ht, hk⟩ := h
  rw [tokens_back] at ht
  rcases List.mem_append.1 ht with ht | ht
  · exact absurd hk (hts t ht)
  · exact ⟨t, ht, hk⟩

theorem advance_back_cons (c : Cursor) {t : Token} (ts : List Token) (ht : t.kind ≠ .eof) :
    (c.back (t :: ts)).advance = c.back ts := by
  cases ts <;> simp [advance, back, tokens, ht]

theorem back_advance {c : Cursor} (hc : c.Closed) (hk : c.current.kind ≠ .eof) :
    c.advance.back [c.current] = c := by
  obtain ⟨t, rest⟩ := c
  cases rest with
  | nil =>
    obtain ⟨u, hu, he⟩ := hc
    obtain rfl : u = t := by simpa [tokens] using hu
    exact absurd he hk
  | cons u us => simp [advance, back, tokens, hk]

theorem closed_advance {c : Cursor} (hc : c.Closed) (hk : c.current.kind ≠ .eof) : c.advance.Closed := by
  apply closed_of_back [c.current]
  · rwa [back_advance hc hk]
  · simpa using hk

theorem skipNewlines_of_ne {c : Cursor} (h : c.current.kind ≠ .newline) : c.skipNewlines = c := by
  obtain ⟨t, rest⟩ := c
  cases rest with
  | nil => rfl
  | cons u us => simp [skipNewlines, skipFrom, show t.kind ≠ .newline from h]

theorem skipNewlines_back_cons (c : Cursor) {t : Token} (ts : List Token) (ht : t.kind = .newline) :
    (c.back (t :: ts)).skipNewlines = (c.back ts).skipNewlines := by
  cases ts <;> simp [skipNewlines, skipFrom, back, tokens, ht]

theorem skipNewlines_back {c : Cursor} {nl : List Token} (hnl : Newlines nl) (hc : c.current.kind ≠ .newline) :
    (c.back nl).skipNewlines = c := by
  induction nl with
  | nil => exact skipNewlines_of_ne hc
  | cons t nl ih =>
    rw [skipNewlines_back_cons c nl (hnl t (by simp))]
    exact ih fun u hu => hnl u (by simp [hu])

theorem exists_back_skipNewlines (c : Cursor) : ∃ nl, Newlines nl ∧ c.skipNewlines.back nl = c := by
  obtain ⟨t, rest⟩ := c
  induction rest generalizing t with
  | nil => exact ⟨[], by simp [Newlines], rfl⟩
  | cons u us ih =>
    by_cases ht : t.kind = .newline
    · obtain ⟨nl, hnl, hback⟩ := ih u
      refine ⟨t :: nl, by simpa [Newlines, ht] using hnl, ?_⟩
      change ((Cursor.mk u us).back [t]).skipNewlines.back (t :: nl) = (Cursor.mk u us).back [t]
      rw [skipNewlines_back_cons _ _ ht, back_nil, back_cons, hback]
    · exact ⟨[], by simp [Newlines], skipNewlines_of_ne ht⟩

theorem closed_skipNewlines {c : Cursor} (hc : c.Closed) : c.skipNewlines.Closed := by
  obtain ⟨nl, hnl, hback⟩ := exists_back_skipNewlines c
  apply closed_of_back nl
  · rwa [hback]
  · intro t ht
    simp [hnl t ht]

end Cursor

namespace Parser

theorem isNameKind_iff (t : Token) : isNameKind t.kind = true ↔ Grammar.IsName t := by
  unfold isNameKind Grammar.IsName
  split <;> simp_all

variable {α β : Type}

@[simp] theorem pure_apply (a : α) (c : Cursor) : (pure a : Parser α) c = .ok (a, c) := rfl

/-- A sequence of two parsers succeeds when the second one does on what the first one leaves. -/
theorem bind_eq_ok {P : Parser α} {f : α → Parser β} {c c' : Cursor} {b : β} :
    (P >>= f) c = .ok (b, c') ↔ ∃ a c₁, P c = .ok (a, c₁) ∧ f a c₁ = .ok (b, c') := by
  change (P c >>= fun x => f x.1 x.2) = _ ↔ _
  cases P c with
  | error e => simp [bind, Except.bind]
  | ok x =>
    constructor
    · exact fun h => ⟨x.1, x.2, rfl, h⟩
    · rintro ⟨a, c₁, hx, h⟩
      cases hx
      exact h

theorem bind_of_ok {P : Parser α} (f : α → Parser β) {c c' : Cursor} {a : α} (h : P c = .ok (a, c')) :
    (P >>= f) c = f a c' := by
  change (P c >>= fun x => f x.1 x.2) = _
  rw [h]
  rfl

theorem bind_of_error {P : Parser α} (f : α → Parser β) {c : Cursor} {e : ParseError} (h : P c = .error e) :
    (P >>= f) c = .error e := by
  change (P c >>= fun x => f x.1 x.2) = _
  rw [h]
  rfl

theorem current_bind (f : Token → Parser β) (c : Cursor) : (current >>= f) c = f c.current c := rfl

theorem kind_bind (f : Kind → Parser β) (c : Cursor) : (kind >>= f) c = f c.current.kind c := rfl

theorem isAt_bind (k : Kind) (f : Bool → Parser β) (c : Cursor) : (isAt k >>= f) c = f (c.current.kind == k) c := rfl

theorem fail_bind_ne_ok {want : Want} {f : α → Parser β} {c : Cursor} {x : β × Cursor} :
    (fail want >>= f) c ≠ .ok x := nofun

theorem duplicate_bind_ne_ok {what : Once} {name : String} {t : Token} {f : α → Parser β} {c : Cursor}
    {x : β × Cursor} : (duplicate what name t >>= f) c ≠ .ok x := nofun

end Parser

end ChainCompiler
