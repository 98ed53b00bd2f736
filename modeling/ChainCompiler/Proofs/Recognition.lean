import ChainCompiler.Proofs.Completeness.Statement
import ChainCompiler.Proofs.Soundness.Statement
import ChainCompiler.Proofs.Tokens

/-! The parser accepts exactly the grammar and builds exactly the derived program. -/

namespace ChainCompiler

namespace Cursor

theorem statementEnd_of_sentences {ts : List Token} {p : Program} {c : Cursor} (h : Grammar.Sentences ts p)
    (hc : c.StatementEnd) : (c.back ts).StatementEnd := by
  induction h with
  | nil => exact hc
  | newline ht _ _ => exact .inl ht
  | cons hs _ _ =>
    cases hs with
    | definition ht => exact .inr (.inr (.inl ht))
    | chain ht => exact .inr (.inr (.inr (.inl ht)))
    | chainWith ht => exact .inr (.inr (.inr (.inl ht)))
    | schema ht => exact .inr (.inr (.inr (.inr ht)))

theorem length_rest_pastNewline (c : Cursor) : c.pastNewline.rest.length ≤ c.rest.length := by
  unfold pastNewline advance
  split
  · split
    · exact Nat.le_refl _
    · split <;> simp_all
  · exact Nat.le_refl _

theorem sentence_current_ne {ts : List Token} {s : Statement} {c : Cursor} (h : Grammar.Sentence ts s) :
    (c.back ts).current.kind ≠ .newline := by
  cases h <;> simp_all

/-- The start of a token sequence that has its end of input. -/
theorem ofTokens_append_eof (ts : List Token) {eof : Token} (h : eof.kind = .eof) :
    ofTokens (ts ++ [eof]) = (Cursor.mk eof []).back ts := by
  cases ts with
  | nil => simp [ofTokens, h]
  | cons t ts => simp [ofTokens, back, tokens, h]

end Cursor

namespace Parser

open Grammar Cursor

/-- The statements that are read from `c` on, when the result is the same whatever the bound. -/
structure Continues (c : Cursor) (r : Except ParseError (Program × Cursor)) : Prop where
  here : ∀ n, c.rest.length < n → statements n c = r
  past : ∀ n, c.pastNewline.rest.length < n → statements n c.pastNewline = r

def inFront (p : Program) (r : Except ParseError (Program × Cursor)) : Except ParseError (Program × Cursor) :=
  r.map fun x => (p ++ x.1, x.2)

theorem inFront_nil (r : Except ParseError (Program × Cursor)) : inFront [] r = r := by
  cases r <;> rfl

theorem inFront_append (p q : Program) (r : Except ParseError (Program × Cursor)) :
    inFront (p ++ q) r = inFront p (inFront q r) := by
  cases r with
  | error e => rfl
  | ok x => simp [inFront, Except.map]

theorem bind_cons_eq_inFront (s : Statement) (n : Nat) (c : Cursor) :
    (statements n >>= fun p => pure (s :: p)) c = inFront [s] (statements n c) := by
  cases h : statements n c with
  | error e => exact bind_of_error _ h
  | ok x => exact bind_of_ok _ h

theorem statements_newline (n : Nat) (c : Cursor) {t : Token} (ts : List Token) (ht : t.kind = .newline) :
    statements (n + 1) (c.back (t :: ts)) = statements n (c.back ts) := by
  rw [statements, kind_bind, current_back_cons, ht]
  exact next_back c _ ts (by simp [ht])

/-- Statements are read one after the other; whatever comes after them is read as if it stood alone. -/
theorem continues_back {ts : List Token} {p : Program} (h : Sentences ts p) {c : Cursor}
    {r : Except ParseError (Program × Cursor)} (hend : c.StatementEnd) (hc : Continues c r) :
    Continues (c.back ts) (inFront p r) := by
  induction h with
  | nil =>
    rw [inFront_nil]
    exact hc
  | @newline t ts p ht hp ih =>
    constructor
    · intro n hn
      rw [length_rest_back, List.length_cons] at hn
      obtain ⟨n, rfl⟩ : ∃ k, n = k + 1 := ⟨n - 1, by omega⟩
      rw [statements_newline n c ts ht]
      exact ih.here n (by rw [length_rest_back]; omega)
    · rw [pastNewline, if_pos (by simpa using ht), advance_back_cons c ts (by simp [ht])]
      exact ih.here
  | @cons ts s us p hs hp ih =>
    have hread : ∀ n, (c.back (ts ++ us)).rest.length < n → statements n (c.back (ts ++ us)) = inFront (s :: p) r := by
      intro n hn
      rw [length_rest_back, List.length_append] at hn
      obtain ⟨n, rfl⟩ : ∃ k, n = k + 1 := ⟨n - 1, by omega⟩
      have hpast := length_rest_pastNewline (c.back us)
      rw [length_rest_back] at hpast
      have hlen : 1 ≤ ts.length := by cases hs <;> simp
      rw [back_append, statements_sentence hs (by omega) (statementEnd_of_sentences hp hend), bind_cons_eq_inFront,
        ih.past n (by omega), ← inFront_append]
      rfl
    refine ⟨hread, ?_⟩
    rwa [pastNewline, if_neg]
    rw [back_append]
    exact sentence_current_ne hs

theorem continues_eof {c : Cursor} (h : c.current.kind = .eof) : Continues c (.ok ([], c)) := by
  have hread : ∀ n, c.rest.length < n → statements n c = .ok ([], c) := by
    intro n hn
    obtain ⟨n, rfl⟩ : ∃ k, n = k + 1 := ⟨n - 1, by omega⟩
    rw [statements, kind_bind, h]
    rfl
  refine ⟨hread, ?_⟩
  rwa [pastNewline, if_neg (by simp [h])]

end Parser

namespace Program

open Grammar

theorem ofTokens_of_sentences {ts : List Token} {p : Program} {eof : Token} (h : Sentences ts p)
    (he : eof.kind = .eof) : ofTokens (ts ++ [eof]) = .ok p := by
  have hend : Parser.Continues ⟨eof, []⟩ (.ok ([], ⟨eof, []⟩)) := Parser.continues_eof he
  have hread := (Parser.continues_back h (.inr (.inl he)) hend).here _ (Nat.lt_succ_self _)
  rw [ofTokens, Cursor.ofTokens_append_eof ts he]
  change Except.map _ (Parser.statements _ _) = _
  rw [hread]
  simp [Parser.inFront, Except.map]

theorem sentences_of_ofTokens {ts : List Token} {p : Program} {eof : Token} (hts : ∀ t ∈ ts, t.kind ≠ .eof)
    (he : eof.kind = .eof) (h : ofTokens (ts ++ [eof]) = .ok p) : Sentences ts p := by
  rw [ofTokens, Cursor.ofTokens_append_eof ts he] at h
  cases hp : Parser.program ((Cursor.mk eof []).back ts) with
  | error e => simp [hp, Except.map] at h
  | ok x =>
    obtain ⟨q, c'⟩ := x
    obtain rfl : q = p := by simpa [hp, Except.map] using h
    have hclosed : ((Cursor.mk eof []).back ts).Closed := ⟨eof, by rw [Cursor.tokens_back]; simp [Cursor.tokens], he⟩
    obtain ⟨hc', us, hback, hq⟩ := Parser.statements_reads _ hclosed hp
    have htokens := congrArg Cursor.tokens hback
    rw [Cursor.tokens_back, Cursor.tokens_back] at htokens
    obtain ⟨rfl, -, -⟩ := Token.eq_of_only_eof hts hc' htokens
    exact hq

theorem ofSource_of_tokenize {source : String} {ts : List Token} (h : Token.tokenize source = .ok ts) :
    ofSource source = (ofTokens ts).mapError .parse := by
  rw [ofSource, h]

theorem ofSource_eq_ok {source : String} {p : Program} (h : ofSource source = .ok p) :
    ∃ ts, Token.tokenize source = .ok ts ∧ ofTokens ts = .ok p := by
  unfold ofSource at h
  cases hts : Token.tokenize source with
  | error e => simp [hts] at h
  | ok ts =>
    rw [hts] at h
    change (ofTokens ts).mapError SourceError.parse = .ok p at h
    refine ⟨ts, rfl, ?_⟩
    cases hp : ofTokens ts with
    | error e => simp only [hp] at h; cases h
    | ok q => simp only [hp] at h; cases h; rfl

/-- The parser accepts exactly the sequences that the grammar derives, with exactly the program they derive, and every
number in them has a value. -/
theorem ofTokens_eq_ok_iff_derives {ts : List Token} (hagrees : ∀ t ∈ ts, t.Agrees) (hends : Token.EndsOnce ts) :
    (∀ p, ofTokens ts = .ok p ↔ Derives ts p) ∧ ∀ t ∈ ts, t.kind = .number → ∃ v, Atom t (.number v) := by
  obtain ⟨init, eof, rfl, he, hinit⟩ := hends
  refine ⟨fun p => ⟨fun h => .mk (sentences_of_ofTokens hinit he h) he, ?_⟩, ?_⟩
  · intro h
    generalize init ++ [eof] = ts at h
    obtain ⟨hp, he'⟩ := h
    exact ofTokens_of_sentences hp he'
  · intro t ht hk
    have hnumeral : IsNumeral t.text := by simpa only [Token.Agrees, hk] using hagrees t ht
    obtain ⟨v, hv⟩ := Double.read?_numeral hnumeral
    exact ⟨v, .number hk hv⟩

def definitionTokens : List Token :=
  [⟨.keyword .defKw, "def", ⟨1, 1⟩⟩, ⟨.identifier, "a", ⟨1, 5⟩⟩, ⟨.mark .assign, "=", ⟨1, 7⟩⟩,
    ⟨.keyword .model, "Model", ⟨1, 9⟩⟩, ⟨.mark .lparen, "(", ⟨1, 14⟩⟩, ⟨.identifier, "x", ⟨1, 15⟩⟩,
    ⟨.mark .assign, "=", ⟨1, 17⟩⟩, ⟨.number, "0", ⟨1, 19⟩⟩, ⟨.mark .rparen, ")", ⟨1, 20⟩⟩, ⟨.eof, "", ⟨1, 21⟩⟩]

theorem derives_definitionTokens :
    (∀ t ∈ definitionTokens, t.Agrees) ∧ Token.EndsOnce definitionTokens ∧
      Derives definitionTokens [⟨"a", 1, .definition (.call ⟨"Model", [⟨some "x", .number (.zero false)⟩], none⟩)⟩] := by
  have hnumeral : IsNumeral "0" := ⟨['0'], [], rfl, by simp, by simp, .inl rfl⟩
  have hfree : ∀ k : Keyword, "a" ≠ k.spelling ∧ "x" ≠ k.spelling := by intro k; cases k <;> decide
  have hagrees : ∀ t ∈ definitionTokens, t.Agrees := by
    simp only [definitionTokens, Token.Agrees, List.forall_mem_cons, hnumeral, hfree, ne_eq, not_false_eq_true,
      implies_true, List.not_mem_nil, false_implies, and_self, and_true, true_and]
    exact ⟨rfl, rfl⟩
  have hends : Token.EndsOnce definitionTokens := ⟨definitionTokens.dropLast, ⟨.eof, "", ⟨1, 21⟩⟩, rfl, rfl, by decide⟩
  exact ⟨hagrees, hends, ((ofTokens_eq_ok_iff_derives hagrees hends).1 _).1 (by rfl)⟩

end Program

end ChainCompiler
