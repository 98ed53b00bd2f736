import ChainCompiler.Proofs.Recognition
import ChainCompiler.Proofs.Viability.Distinctness
import ChainCompiler.Proofs.Viability.Statement

/-! No error is reported late. The tokens of a source are at different places, so that an error tells which token it is
about, and what comes before an unexpected token can still be completed to a program, unless a list that is open there
has a name twice. -/

namespace ChainCompiler

namespace Position

/-- On an earlier line, or further left on the same one. -/
def Before (p q : Position) : Prop := p.line < q.line ∨ p.line = q.line ∧ p.column < q.column

theorem Before.trans {p q r : Position} (h : p.Before q) (h' : q.Before r) : p.Before r := by
  unfold Before at *
  omega

theorem Before.ne {p q : Position} (h : p.Before q) : p ≠ q := by
  rintro rfl
  unfold Before at h
  omega

theorem before_next (p : Position) (c : Char) : p.Before (p.next c) := by
  unfold Before next
  split
  · exact .inl (Nat.lt_succ_self _)
  · exact .inr ⟨rfl, Nat.lt_succ_self _⟩

theorem before_after (p : Position) {cs : List Char} (h : cs ≠ []) : p.Before (p.after cs) := by
  induction cs generalizing p with
  | nil => exact absurd rfl h
  | cons c cs ih =>
    rw [after_cons]
    by_cases hcs : cs = []
    · rw [hcs, after_nil]
      exact p.before_next c
    · exact (p.before_next c).trans (ih _ hcs)

end Position

namespace Token

/-- Each token is at a later place than those before it, and none is before the place where scanning starts. -/
theorem pairwise_before_of_scanned {pos : Position} {cs : List Char} {ts : List Token} (h : Scanned pos cs (.ok ts)) :
    (∀ t ∈ ts, t.pos = pos ∨ pos.Before t.pos) ∧ ts.Pairwise fun t u => t.pos.Before u.pos := by
  generalize hresult : Except.ok ts = result at h
  induction h generalizing ts with
  | done =>
    cases hresult
    exact ⟨by simp [eofAt], by simp⟩
  | stuck => cases hresult
  | @lexeme pos r text rest result _ hne _ _ ih =>
    cases result with
    | error e => cases hresult
    | ok us =>
      cases hresult
      obtain ⟨hfrom, hpairs⟩ := ih rfl
      have hafter := pos.before_after hne
      have hlater : ∀ u ∈ us, pos.Before u.pos := by
        intro u hu
        rcases hfrom u hu with heq | hbefore
        · exact heq ▸ hafter
        · exact hafter.trans hbefore
      unfold Rule.emit
      split
      · exact ⟨fun t ht => .inr (hlater t ht), hpairs⟩
      · refine ⟨fun t ht => ?_, .cons hlater hpairs⟩
        rcases List.mem_cons.1 ht with rfl | ht
        · exact .inl rfl
        · exact .inr (hlater t ht)

/-- The end of input is not among the tokens in front of a token. -/
theorem EndsOnce.ne_eof_of_append {front us : List Token} {t : Token} (h : EndsOnce (front ++ t :: us)) :
    ∀ u ∈ front, u.kind ≠ .eof := by
  obtain ⟨init, eof, heq, -, hinit⟩ := h
  have hfront : front ++ (t :: us).dropLast = init := by
    rw [← List.dropLast_append_of_ne_nil (by simp), heq, List.dropLast_concat]
  intro u hu
  exact hinit u (hfront ▸ List.mem_append_left _ hu)

/-- A token of a source is the only one at its place. -/
theorem getElem?_pos_iff {source : String} {ts us : List Token} {t : Token}
    (h : tokenize source = .ok (ts ++ t :: us)) (j : Nat) :
    (ts ++ t :: us)[j]?.map Token.pos = some t.pos ↔ j = ts.length := by
  have hpairs := (pairwise_before_of_scanned (scanned_of_tokenize h)).2
  have hnodup : ((ts ++ t :: us).map Token.pos).Nodup := List.pairwise_map.2 (hpairs.imp fun hbefore => hbefore.ne)
  have hat : ((ts ++ t :: us).map Token.pos)[ts.length]? = some t.pos := by simp
  rw [← List.getElem?_map]
  constructor
  · intro hj
    exact ((List.getElem?_inj (by simp) hnodup).1 (hat.trans hj.symm)).symm
  · rintro rfl
    exact hat

end Token

namespace Program

theorem ofSource_eq_parse_error {source : String} {e : ParseError} (h : ofSource source = .error (.parse e)) :
    ∃ ts, Token.tokenize source = .ok ts ∧ ofTokens ts = .error e := by
  unfold ofSource at h
  cases hts : Token.tokenize source with
  | error e => simp [hts] at h
  | ok ts =>
    rw [hts] at h
    change (ofTokens ts).mapError SourceError.parse = _ at h
    refine ⟨ts, rfl, ?_⟩
    cases hp : ofTokens ts with
    | error e => simp only [hp] at h; cases h; rfl
    | ok q => simp only [hp] at h; cases h

/-- The parser as a whole fails where one of its parts does. -/
theorem exists_beginsProgram_of_unexpected {ts : List Token} {want : Want} {t : Token} (hends : Token.EndsOnce ts)
    (h : ofTokens ts = .error (.unexpected want t)) :
    ∃ front rest, ts = front ++ t :: rest ∧ Parser.BeginsProgram front := by
  obtain ⟨init, eof, rfl, he, -⟩ := hends
  rw [ofTokens, Cursor.ofTokens_append_eof init he] at h
  have hclosed : ((Cursor.mk eof []).back init).Closed := ⟨eof, by rw [Cursor.tokens_back]; simp [Cursor.tokens], he⟩
  cases hp : Parser.program ((Cursor.mk eof []).back init) with
  | ok x => simp [hp, Except.map] at h
  | error e =>
    obtain rfl : e = .unexpected want t := by simpa [hp, Except.map] using h
    obtain ⟨front, ⟨rest, hrest⟩, hbegins⟩ := Parser.statements_stalls _ hclosed hp
    rw [Cursor.tokens_back] at hrest
    exact ⟨front, rest, hrest, hbegins⟩

end Program

/-- A completion can be scanned, and the parser accepts it. -/
theorem exists_ofTokens_of_viable {ts : List Token} (h : Viable (fun us => ∃ p, Grammar.Sentences us p) ts) :
    ∃ text cs p, Token.tokenize text = .ok cs ∧ Program.ofTokens (ts ++ cs) = .ok p := by
  obtain ⟨w, hw⟩ := h
  obtain ⟨us, ⟨p, hp⟩, hscan⟩ := hw .start [] trivial
  refine ⟨String.ofList w, us ++ [.eofAt (Position.start.after w)], p, ?_, ?_⟩
  · rw [Token.tokenize, String.toList_ofList]
    rw [List.append_nil] at hscan
    exact hscan
  · rw [← List.append_assoc]
    exact Program.ofTokens_of_sentences hp rfl

/-- No completion mends a list with a name twice. -/
theorem distinct_of_ofTokens {front cs : List Token} {p : Program} (hfront : ∀ u ∈ front, u.kind ≠ .eof)
    (hcs : Token.EndsOnce cs) (h : Program.ofTokens (front ++ cs) = .ok p) : (Nesting.empty.reads front).Distinct := by
  obtain ⟨init, eof, rfl, he, hinit⟩ := hcs
  rw [← List.append_assoc] at h
  exact Grammar.distinct_of_sentences (Program.sentences_of_ofTokens (List.forall_mem_append.2 ⟨hfront, hinit⟩) he h)

/-- What comes before a token that the parser does not expect can be completed to a program exactly when no list of
arguments and no object that is still open there has a name twice. -/
theorem exists_completion_of_unexpected {source : String} {e : ParseError}
    (h : Program.ofSource source = .error (.parse e)) (he : ∀ what name place, e ≠ .duplicate what name place) :
    ∃ ts i, Token.tokenize source = .ok ts ∧ (∀ j, ts[j]?.map Token.pos = some e.pos ↔ j = i) ∧
      ((Nesting.empty.reads (ts.take i)).Distinct ↔
        ∃ text cs p, Token.tokenize text = .ok cs ∧ Program.ofTokens (ts.take i ++ cs) = .ok p) := by
  obtain ⟨ts, hts, hp⟩ := Program.ofSource_eq_parse_error h
  obtain ⟨want, t, rfl⟩ : ∃ want t, e = .unexpected want t := by
    cases e with
    | unexpected want t => exact ⟨want, t, rfl⟩
    | duplicate what name place => exact absurd rfl (he what name place)
  have hends := Token.endsOnce_of_scanned (Token.scanned_of_tokenize hts)
  obtain ⟨front, us, rfl, hcompletable⟩ := Program.exists_beginsProgram_of_unexpected hends hp
  refine ⟨_, front.length, hts, Token.getElem?_pos_iff hts, ?_⟩
  rw [List.take_left]
  constructor
  · exact fun hdistinct => exists_ofTokens_of_viable (hcompletable _ trivial hdistinct)
  · rintro ⟨text, cs, p, hcs, hp⟩
    exact distinct_of_ofTokens hends.ne_eof_of_append (Token.endsOnce_of_scanned (Token.scanned_of_tokenize hcs)) hp

/-- An argument list that is broken off, as in `def x = f(a = y, ]`. -/
def brokenTokens : List Token :=
  [⟨.keyword .defKw, "def", ⟨1, 1⟩⟩, ⟨.identifier, "x", ⟨1, 5⟩⟩, ⟨.mark .assign, "=", ⟨1, 7⟩⟩,
    ⟨.identifier, "f", ⟨1, 9⟩⟩, ⟨.mark .lparen, "(", ⟨1, 10⟩⟩, ⟨.identifier, "a", ⟨1, 11⟩⟩,
    ⟨.mark .assign, "=", ⟨1, 13⟩⟩, ⟨.identifier, "y", ⟨1, 15⟩⟩, ⟨.mark .comma, ",", ⟨1, 16⟩⟩]

/-- Its nine tokens can be completed, though not with the bracket that comes after them. -/
theorem exists_completion_of_unexpected_brokenTokens :
    Program.ofSource "def x = f(a = y, ]" =
      .error (.parse (.unexpected .argumentName ⟨.mark .rbracket, "]", ⟨1, 18⟩⟩)) ∧
      ∃ text cs p, Token.tokenize text = .ok cs ∧ Program.ofTokens (brokenTokens ++ cs) = .ok p := by
  have htokens : Token.tokenize "def x = f(a = y, ]" =
      .ok (brokenTokens ++ [⟨.mark .rbracket, "]", ⟨1, 18⟩⟩, .eofAt ⟨1, 19⟩]) := rfl
  have hsource : Program.ofSource "def x = f(a = y, ]" =
      .error (.parse (.unexpected .argumentName ⟨.mark .rbracket, "]", ⟨1, 18⟩⟩)) :=
    (Program.ofSource_of_tokenize htokens).trans rfl
  obtain ⟨ts, i, hts, hi, hcompletion⟩ := exists_completion_of_unexpected hsource (by simp)
  rw [htokens] at hts
  cases hts
  obtain rfl : 9 = i := (hi 9).1 rfl
  exact ⟨hsource, hcompletion.1 (by decide)⟩

end ChainCompiler
