import ChainCompiler.Proofs.Recognition
import ChainCompiler.Proofs.Relexing
import ChainCompiler.Proofs.Shift.Statement
import ChainCompiler.Proofs.Tiling

/-! Sources put together line after line. What follows a program is scanned and parsed as if it stood alone, further
down. -/

namespace ChainCompiler

theorem Cursor.down_back (k : Nat) (c : Cursor) (ts : List Token) :
    (c.back ts).down k = (c.down k).back (ts.map (Token.down k)) := by
  cases ts with
  | nil => rfl
  | cons t ts => simp [back, down, tokens]

theorem Position.next_down (k : Nat) (p : Position) (c : Char) : (p.down k).next c = (p.next c).down k := by
  unfold next
  split
  · simp [down, Nat.add_right_comm]
  · rfl

theorem Position.after_down (k : Nat) (p : Position) (cs : List Char) : (p.down k).after cs = (p.after cs).down k := by
  induction cs generalizing p with
  | nil => rfl
  | cons c cs ih => rw [after_cons, after_cons, next_down, ih]

theorem Rule.emit_down (k : Nat) (r : Rule) (text : List Char) (pos : Position) :
    r.emit text (pos.down k) = (r.emit text pos).map (Token.down k) := by
  unfold emit
  split <;> rfl

theorem Scanned.scan_down (k : Nat) {pos : Position} {cs : List Char} {result : Except LexError (List Token)}
    (h : Scanned pos cs result) :
    Token.scan (pos.down k) 0 cs = (result.map (List.map (Token.down k))).mapError (LexError.down k) := by
  induction h with
  | done => rfl
  | stuck hnone =>
    rw [Token.scan, hnone]
    rfl
  | @lexeme pos r text rest result hfirst hne _ _ ih =>
    rw [Token.scan_lexeme hne hfirst, Position.after_down, ih, Rule.emit_down]
    cases result with
    | error e => rfl
    | ok ts => exact congrArg Except.ok List.map_append.symm

theorem Position.next_newline_after (cs : List Char) : (start.after cs).next '\n' = start.down (cs.count '\n' + 1) := by
  have hafter : start.after cs = ofText cs := after_ofText [] cs
  rw [hafter]
  simp [ofText, next, down, start, Nat.add_assoc]

namespace Token

/-- The tokens of a text, a newline, and those of the text after it, further down. -/
theorem tokenize_append_newline {a : String} {init : List Token} {eof : Token} (ha : tokenize a = .ok (init ++ [eof]))
    (hapart : Grammar.Apart (init ++ [eof])) (b : String) :
    ∃ nl : Token, nl.kind = .newline ∧ tokenize (a ++ "\n" ++ b) =
      (((tokenize b).map (List.map (Token.down (a.toList.count '\n' + 1)))).mapError
        (LexError.down (a.toList.count '\n' + 1))).map (init ++ nl :: ·) := by
  refine ⟨⟨.newline, "\n", Position.start.after a.toList⟩, rfl, ?_⟩
  have hsource : (a ++ "\n" ++ b).toList = a.toList ++ '\n' :: b.toList := by simp
  rw [tokenize, hsource, scan_append_newline (scanned_of_tokenize ha) hapart, Position.next_newline_after,
    (scanned .start b.toList).scan_down, tokenize]

end Token

namespace Parser

open Cursor

/-- After a newline statements are read as from the place behind it. -/
theorem continues_newline {d : Cursor} {r : Except ParseError (Program × Cursor)} {t : Token} (ht : t.kind = .newline)
    (hd : ∀ n, d.rest.length < n → statements n d = r) : Continues (d.back [t]) r := by
  constructor
  · intro n hn
    rw [length_rest_back, List.length_singleton] at hn
    obtain ⟨n, rfl⟩ : ∃ j, n = j + 1 := ⟨n - 1, by omega⟩
    rw [statements_newline n d [] ht]
    exact hd n (by omega)
  · rw [pastNewline, if_pos (by simpa using ht), advance_back_cons d [] (by simp [ht])]
    exact hd

end Parser

namespace Program

theorem ofTokens_map_down {init ts : List Token} {p : Program} {t : Token} (k : Nat) (hinit : Grammar.Sentences init p)
    (ht : t.kind = .newline) (hts : Token.EndsOnce ts) :
    ofTokens (init ++ t :: ts.map (Token.down k)) =
      ((ofTokens ts).map fun q => p ++ q.map (Statement.down k)).mapError (ParseError.down k) := by
  obtain ⟨us, eof, rfl, he, -⟩ := hts
  let d : Cursor := (Cursor.mk eof []).back us
  have hclosed : d.Closed := ⟨eof, by rw [Cursor.tokens_back]; simp [Cursor.tokens], he⟩
  have hstart : Cursor.ofTokens (init ++ t :: (us ++ [eof]).map (Token.down k)) = ((d.down k).back [t]).back init := by
    have hmap : init ++ t :: (us ++ [eof]).map (Token.down k) =
        init ++ [t] ++ us.map (Token.down k) ++ [eof.down k] := by simp
    have hdown : d.down k = (Cursor.mk (eof.down k) []).back (us.map (Token.down k)) := Cursor.down_back k _ us
    have heof : (eof.down k).kind = .eof := he
    rw [hmap, Cursor.ofTokens_append_eof _ heof, hdown, Cursor.back_append, Cursor.back_append]
  have hread : ∀ n, (d.down k).rest.length < n →
      Parser.statements n (d.down k) = Parser.moved k (List.map (Statement.down k)) (Parser.program d) := by
    intro n hn
    have hlen : (d.down k).rest.length = d.rest.length := List.length_map _
    exact (Parser.statements_tracks (d.rest.length + 1) n hclosed (Nat.lt_succ_self _) (by omega)).eq
  have hcontinues := Parser.continues_back hinit (.inl ht) (Parser.continues_newline ht hread)
  have hprogram := hcontinues.here _ (Nat.lt_succ_self _)
  rw [ofTokens, ofTokens, hstart, Cursor.ofTokens_append_eof us he]
  change Except.map _ (Parser.statements _ _) = _
  rw [hprogram]
  change Except.map _ (Parser.inFront p (Parser.moved k _ (Parser.program d))) =
    Except.mapError _ (Except.map _ (Except.map _ (Parser.program d)))
  cases Parser.program d <;> rfl

/-- A source after a program, on a line of its own, gives what it gives alone, with the program in front and its places
moved down by the lines of the program. -/
theorem ofSource_append_newline {a : String} {p : Program} (ha : ofSource a = .ok p) (b : String) :
    ofSource (a ++ "\n" ++ b) =
      match ofSource b with
      | .ok q => .ok (p ++ q.map (Statement.down (a.toList.count '\n' + 1)))
      | .error e => .error (e.down (a.toList.count '\n' + 1)) := by
  obtain ⟨ts, hts, hp⟩ := ofSource_eq_ok ha
  obtain ⟨init, eof, rfl, he, hinit⟩ := Token.endsOnce_of_scanned (Token.scanned_of_tokenize hts)
  have hsentences := sentences_of_ofTokens hinit he hp
  have hapart : Grammar.Apart (init ++ [eof]) :=
    (Grammar.calm_of_sentences hsentences).apart.append (.cons he (by simp) List.IsChain.nil)
  obtain ⟨nl, hnl, htokens⟩ := Token.tokenize_append_newline hts hapart b
  rw [ofSource, htokens, ofSource]
  cases hb : Token.tokenize b with
  | error e => rfl
  | ok us =>
    change (ofTokens (init ++ nl :: us.map _)).mapError _ = _
    rw [ofTokens_map_down _ hsentences hnl (Token.endsOnce_of_scanned (Token.scanned_of_tokenize hb))]
    cases hq : ofTokens us <;> simp only [hq] <;> rfl

/-- An unfinished definition is found on the third line when two lines come before it. -/
theorem ofSource_append_newline_unfinished :
    ofSource "// note\ndef x = \"\"" = .ok [⟨"x", 2, .definition (.string "")⟩] ∧
      ofSource ("// note\ndef x = \"\"" ++ "\n" ++ "def y =") =
        .error (.parse (.unexpected .expression ⟨.eof, "", ⟨3, 8⟩⟩)) := by
  have hnote : Token.tokenize "// note\ndef x = \"\"" = .ok [⟨.newline, "\n", ⟨1, 8⟩⟩,
      ⟨.keyword .defKw, "def", ⟨2, 1⟩⟩, ⟨.identifier, "x", ⟨2, 5⟩⟩, ⟨.mark .assign, "=", ⟨2, 7⟩⟩,
      ⟨.string, "\"\"", ⟨2, 9⟩⟩, ⟨.eof, "", ⟨2, 11⟩⟩] := rfl
  have hunfinished : Token.tokenize "def y =" = .ok [⟨.keyword .defKw, "def", ⟨1, 1⟩⟩, ⟨.identifier, "y", ⟨1, 5⟩⟩,
      ⟨.mark .assign, "=", ⟨1, 7⟩⟩, ⟨.eof, "", ⟨1, 8⟩⟩] := rfl
  have ha : ofSource "// note\ndef x = \"\"" = .ok [⟨"x", 2, .definition (.string "")⟩] :=
    (ofSource_of_tokenize hnote).trans rfl
  have hb : ofSource "def y =" = .error (.parse (.unexpected .expression ⟨.eof, "", ⟨1, 8⟩⟩)) :=
    (ofSource_of_tokenize hunfinished).trans rfl
  refine ⟨ha, ?_⟩
  rw [ofSource_append_newline ha, hb]
  rfl

end Program

end ChainCompiler
