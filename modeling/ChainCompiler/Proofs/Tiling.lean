import ChainCompiler.Proofs.Scanning

/-! No character of a source is lost. The tokens and the runs that give no token lie end to end over the source, each
token is at the place where its text starts, and a scan that fails does so where the tiles end. -/

namespace ChainCompiler

namespace Position

/-- The place that comes after a text: one line for each line break, then one column for each character since. -/
def ofText (before : List Char) : Position :=
  ⟨1 + before.count '\n', 1 + (before.reverse.takeWhile (· ≠ '\n')).length⟩

theorem ofText_append_singleton (before : List Char) (c : Char) : ofText (before ++ [c]) = (ofText before).next c := by
  by_cases hc : c = '\n'
  · simp [ofText, next, hc, Nat.add_assoc]
  · simp [ofText, next, hc]
    omega

theorem after_ofText (before cs : List Char) : (ofText before).after cs = ofText (before ++ cs) := by
  induction cs generalizing before with
  | nil => simp
  | cons c cs ih => rw [after_cons, ← ofText_append_singleton, ih, List.append_assoc, List.singleton_append]

end Position

/-- After `before` comes a text that is laid out with tiles up to `rest`: tokens at their places, blanks, and comments
that go to the end of their lines. -/
inductive Tiles : List Char → List Char → List Token → List Char → Prop
  | done {before rest} : Tiles before rest [] rest
  | token {before t more ts rest} :
      t.text ≠ "" → t.pos = .ofText before → Tiles (before ++ t.text.toList) more ts rest →
      Tiles before (t.text.toList ++ more) (t :: ts) rest
  | blanks {before run more ts rest} :
      run ≠ [] → (∀ c ∈ run, c = ' ' ∨ c = '\t' ∨ c = '\r') → Tiles (before ++ run) more ts rest →
      Tiles before (run ++ more) ts rest
  | comment {before body more ts rest} :
      '\n' ∉ body → (more = [] ∨ more.head? = some '\n') → Tiles (before ++ '/' :: '/' :: body) more ts rest →
      Tiles before ('/' :: '/' :: body ++ more) ts rest

/-- Every lexeme is a tile: of the rules that give no token, one takes blanks and one takes comments. -/
theorem Tiles.lexeme {before text more rest : List Char} {r : Rule} {ts : List Token} (hlexeme : Lexeme r text more)
    (hne : text ≠ []) (h : Tiles (before ++ text) more ts rest) :
    Tiles before (text ++ more) (r.emit text (.ofText before) ++ ts) rest := by
  cases hk : r.kind? (String.ofList text) with
  | some kind =>
    let t : Token := ⟨kind, String.ofList text, .ofText before⟩
    have htext : t.text.toList = text := String.toList_ofList
    have htoken : r.emit text (.ofText before) = [t] := by rw [Rule.emit, hk]
    rw [htoken, ← htext]
    refine .token ?_ rfl (by rwa [htext])
    intro hempty
    rw [hempty] at htext
    exact hne htext.symm
  | none =>
    have htoken : r.emit text (.ofText before) = [] := by rw [Rule.emit, hk]
    rw [htoken, List.nil_append]
    cases hlexeme with
    | blanks _ hskip _ => exact .blanks hne (by simpa [Rule.isSkipped, or_assoc] using hskip) h
    | comment hbody hrest =>
      refine .comment hbody ?_ h
      cases more with
      | nil => exact .inl rfl
      | cons c more => exact .inr (by simpa using hrest c rfl)
    | _ => cases hk

/-- How a source is accounted for by the result of scanning it, from some place on. -/
def Accounts (before cs : List Char) : Except LexError (List Token) → Prop
  | .ok ts => ∃ init, ts = init ++ [.eofAt (.ofText (before ++ cs))] ∧ Tiles before cs init []
  | .error e =>
    ∃ ts front rest, cs = front ++ e.char :: rest ∧ e.pos = .ofText (before ++ front) ∧
      Tiles before cs ts (e.char :: rest) ∧ Stuck (e.char :: rest)

theorem accounts_of_scanned {pos : Position} {cs : List Char} {result : Except LexError (List Token)}
    (h : Scanned pos cs result) {before : List Char} (hpos : pos = .ofText before) : Accounts before cs result := by
  induction h generalizing before with
  | done =>
    subst hpos
    exact ⟨[], by simp, .done⟩
  | @stuck pos c cs hnone =>
    exact ⟨[], [], cs, rfl, by simpa using hpos, .done, stuck_of_first?_eq_none hnone⟩
  | @lexeme pos r text rest result _ hne hlexeme _ ih =>
    subst hpos
    have hmore := ih (Position.after_ofText before text)
    cases result with
    | ok ts =>
      obtain ⟨init, rfl, htiles⟩ := hmore
      exact ⟨r.emit text (.ofText before) ++ init, by simp, .lexeme hlexeme hne htiles⟩
    | error e =>
      obtain ⟨ts, front, more, rfl, hat, htiles, hstuck⟩ := hmore
      exact ⟨_, text ++ front, more, by simp, by simpa using hat, .lexeme hlexeme hne htiles, hstuck⟩

namespace Token

end Token

end ChainCompiler
