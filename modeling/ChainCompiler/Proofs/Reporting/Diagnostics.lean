import ChainCompiler.Proofs.Compiling
import ChainCompiler.Proofs.Lexical
import ChainCompiler.Proofs.Reporting.Repetition
import ChainCompiler.Proofs.Tiling
import ChainCompiler.Proofs.Viability.Report

/-! Every diagnostic of a compilation points into the source: at the character that no token starts with, at the token
that does not fit or that is given again, or at the line of the first statement that has no lowering. -/

namespace ChainCompiler

namespace Token

/-- Where a token of a source is: at the place where its text starts, or at the end. -/
inductive Placed (source : List Char) (t : Token) : Prop
  | text {before after} :
      t.kind ≠ .eof → t.text ≠ "" → source = before ++ (t.text.toList ++ after) → t.pos = .ofText before →
      Placed source t
  | eof : t.kind = .eof → t.pos = .ofText source → Placed source t

theorem exists_text_of_tiles {before cs rest : List Char} {ts : List Token} (h : Tiles before cs ts rest) :
    ∀ t ∈ ts, ∃ front after, t.text ≠ "" ∧ cs = front ++ (t.text.toList ++ after) ∧
      t.pos = .ofText (before ++ front) := by
  -- what a tile covers goes in front of the text of every token after it
  have hbehind : ∀ {before tile more : List Char} {t : Token},
      (∃ front after, t.text ≠ "" ∧ more = front ++ (t.text.toList ++ after) ∧
        t.pos = .ofText (before ++ tile ++ front)) →
      ∃ front after, t.text ≠ "" ∧ tile ++ more = front ++ (t.text.toList ++ after) ∧
        t.pos = .ofText (before ++ front) := by
    rintro before tile more t ⟨front, after, hne, rfl, hpos⟩
    exact ⟨tile ++ front, after, hne, by simp, by rw [hpos, List.append_assoc]⟩
  induction h with
  | done => intro t ht; cases ht
  | token hne hpos _ ih =>
    intro t ht
    rcases List.mem_cons.1 ht with rfl | ht
    · exact ⟨[], _, hne, rfl, by rw [List.append_nil, hpos]⟩
    · exact hbehind (ih t ht)
  | blanks _ _ _ ih => exact fun t ht => hbehind (ih t ht)
  | comment _ _ _ ih => exact fun t ht => hbehind (ih t ht)

theorem placed_of_tokenize {source : String} {ts : List Token} (h : tokenize source = .ok ts) :
    ∀ t ∈ ts, Placed source.toList t := by
  have hscanned := scanned_of_tokenize h
  have haccounts : Accounts [] source.toList (.ok ts) := accounts_of_scanned hscanned rfl
  obtain ⟨init, rfl, htiles⟩ := haccounts
  have hinit := (endsOnce_of_scanned hscanned).ne_eof
  intro t ht
  rcases List.mem_append.1 ht with ht | ht
  · obtain ⟨front, after, hne, hsource, hpos⟩ := exists_text_of_tiles htiles t ht
    exact .text (hinit t ht) hne hsource hpos
  · obtain rfl := List.mem_singleton.1 ht
    exact .eof rfl rfl

end Token

namespace Grammar

/-- The tokens of a statement in a program: those before it make up the statements before it. -/
theorem exists_sentence_of_sentences {ts : List Token} {front back : Program} {s : Statement}
    (h : Sentences ts (front ++ s :: back)) :
    ∃ us t vs ws, ts = us ++ (t :: vs ++ ws) ∧ Sentences us front ∧ Sentence (t :: vs) s ∧ Sentences ws back := by
  generalize hp : front ++ s :: back = p at h
  induction h generalizing front with
  | nil => simp at hp
  | newline ht _ ih =>
    obtain ⟨us, t, vs, ws, rfl, hus, hs, hws⟩ := ih hp
    exact ⟨_ :: us, t, vs, ws, rfl, .newline ht hus, hs, hws⟩
  | @cons ts s' us p hs' hmore ih =>
    cases front with
    | nil =>
      obtain ⟨rfl, rfl⟩ := List.cons.inj hp
      obtain ⟨t, vs, rfl⟩ : ∃ t vs, ts = t :: vs := by cases hs' <;> exact ⟨_, _, rfl⟩
      exact ⟨[], t, vs, us, rfl, .nil, hs', hmore⟩
    | cons s'' front =>
      obtain ⟨rfl, hrest⟩ := List.cons.inj hp
      obtain ⟨us', t, vs, ws, rfl, hus, hs, hws⟩ := ih hrest
      exact ⟨ts ++ us', t, vs, ws, by simp, .cons hs' hus, hs, hws⟩

/-- A statement starts with its keyword, and is on that line. -/
theorem keyword_of_sentence {t : Token} {ts : List Token} {s : Statement} (h : Sentence (t :: ts) s) :
    (∃ k, t.kind = .keyword k ∧ k.spelling = s.keyword) ∧ s.line = t.pos.line := by
  cases h with
  | definition ht => exact ⟨⟨_, ht, rfl⟩, rfl⟩
  | chain ht => exact ⟨⟨_, ht, rfl⟩, rfl⟩
  | chainWith ht => exact ⟨⟨_, ht, rfl⟩, rfl⟩
  | schema ht => exact ⟨⟨_, ht, rfl⟩, rfl⟩

end Grammar

/-- The first statement that fails ends the lowering of a program. -/
theorem Lower.program_eq_error {p : Program} {s u : Scope} {e : LoweringError} (h : (program p).run s = (.error e, u)) :
    ∃ front back ls t, p = front ++ e.statement :: back ∧ (program front).run s = (.ok ls, t) ∧
      statement e.statement t = (.error e.cause, u) := by
  induction p generalizing s with
  | nil => cases h
  | cons st p ih =>
    rcases hst : statement st s with ⟨cause | l, t⟩
    · rw [program_cons_of_error p hst] at h
      cases h
      exact ⟨[], p, [], s, rfl, rfl, hst⟩
    · rw [program_cons_of_ok p hst] at h
      rcases hp : (program p).run t with ⟨e' | ls, u'⟩
      · rw [hp] at h
        cases h
        obtain ⟨front, back, ls, t', rfl, hfront, hfails⟩ := ih hp
        refine ⟨st :: front, back, l :: ls, t', rfl, ?_, hfails⟩
        rw [program_cons_of_ok front hst, hfront]
        rfl
      · rw [hp] at h
        cases h

namespace Diagnostic

open Grammar

inductive PointsInto (source : String) : Diagnostic → Prop
  | character {before c after} :
      source.toList = before ++ c :: after →
      PointsInto source ⟨.lex, "unexpected character '" ++ c.toString ++ "'", some (Position.ofText before).line,
        some (Position.ofText before).column⟩
  | unexpected {front t back want} :
      Token.tokenize source = .ok (front ++ t :: back) → t.Placed source.toList →
      PointsInto source ⟨.parse, "expected " ++ want ++ ", found " ++ t.describe, some t.pos.line, some t.pos.column⟩
  | repetition {front t back what name} :
      Token.tokenize source = .ok (front ++ t :: back) → t.Placed source.toList → Repetition what name front t →
      PointsInto source ⟨.parse,
        "expected " ++ ("unique " ++ what.text) ++ ", found " ++ ("duplicate " ++ what.text ++ " '" ++ name ++ "'"),
        some t.pos.line, some t.pos.column⟩
  | statement {us t vs ws front s back ls scope scope' cause} :
      Token.tokenize source = .ok (us ++ (t :: vs ++ ws)) → t.Placed source.toList →
      Program.ofSource source = .ok (front ++ s :: back) → Sentences us front → Sentence (t :: vs) s →
      t.text = s.keyword → (Lower.program front).run (Scope.initial (front ++ s :: back)) = (.ok ls, scope) →
      Lower.statement s scope = (.error cause, scope') →
      PointsInto source ⟨.codegen, "cannot lower " ++ s.title ++ ": " ++ cause.message, some t.pos.line, none⟩

/-- Configurations have a stage of their own, which points into no source. -/
theorem PointsInto.stage_mem {source : String} {d : Diagnostic} (h : d.PointsInto source) :
    d.stage ∈ [Stage.lex, .parse, .codegen] := by
  cases h <;> simp

theorem pointsInto_of_lex {source : String} {e : LexError} (h : Program.ofSource source = .error (.lex e)) :
    PointsInto source (SourceError.lex e).diagnostic := by
  have haccounts : Accounts [] source.toList (Token.tokenize source) :=
    accounts_of_scanned (Token.scanned .start source.toList) rfl
  have herror : Token.tokenize source = .error e := by
    unfold Program.ofSource at h
    cases hts : Token.tokenize source with
    | error e' =>
      rw [hts] at h
      cases h
      rfl
    | ok ts =>
      rw [hts] at h
      cases hp : Program.ofTokens ts with
      | error e' => simp only [hp] at h; cases h
      | ok p => simp only [hp] at h; cases h
  rw [herror] at haccounts
  obtain ⟨ts, front, rest, hsource, hpos, -, -⟩ := haccounts
  have hpoints := PointsInto.character hsource
  rw [List.nil_append] at hpos
  rw [← hpos] at hpoints
  exact hpoints

theorem exists_repetition_of_duplicate {ts : List Token} {what : Once} {name : String} {t : Token}
    (hends : Token.EndsOnce ts) (h : Program.ofTokens ts = .error (.duplicate what name t)) :
    ∃ front rest, ts = front ++ t :: rest ∧ Repetition what name front t := by
  obtain ⟨init, eof, rfl, he, -⟩ := hends
  rw [Program.ofTokens, Cursor.ofTokens_append_eof init he] at h
  have hclosed : ((Cursor.mk eof []).back init).Closed := ⟨eof, by rw [Cursor.tokens_back]; simp [Cursor.tokens], he⟩
  cases hp : Parser.program ((Cursor.mk eof []).back init) with
  | ok x => simp [hp, Except.map] at h
  | error e =>
    obtain rfl : e = .duplicate what name t := by simpa [hp, Except.map] using h
    obtain ⟨front, ⟨rest, hrest⟩, hrepetition⟩ := Parser.statements_detects _ hclosed hp
    rw [Cursor.tokens_back] at hrest
    exact ⟨front, rest, hrest, hrepetition⟩

theorem pointsInto_of_parse {source : String} {e : ParseError} (h : Program.ofSource source = .error (.parse e)) :
    PointsInto source (SourceError.parse e).diagnostic := by
  obtain ⟨ts, hts, hp⟩ := Program.ofSource_eq_parse_error h
  have hends := Token.endsOnce_of_scanned (Token.scanned_of_tokenize hts)
  have hplaced := Token.placed_of_tokenize hts
  cases e with
  | unexpected want t =>
    obtain ⟨front, rest, rfl, -⟩ := Program.exists_beginsProgram_of_unexpected hends hp
    exact .unexpected hts (hplaced t (by simp))
  | duplicate what name t =>
    obtain ⟨front, rest, rfl, hrepetition⟩ := exists_repetition_of_duplicate hends hp
    exact .repetition hts (hplaced t (by simp)) hrepetition

theorem pointsInto_of_lowering {source : String} {p : Program} {scope : Scope} {e : LoweringError}
    (hp : Program.ofSource source = .ok p) (h : (Lower.program p).run (Scope.initial p) = (.error e, scope)) :
    PointsInto source e.diagnostic := by
  obtain ⟨front, back, ls, t, rfl, hfront, hfails⟩ := Lower.program_eq_error h
  obtain ⟨ts, hts, htokens⟩ := Program.ofSource_eq_ok hp
  have hscanned := Token.scanned_of_tokenize hts
  obtain ⟨init, eof, rfl, he, hinit⟩ := Token.endsOnce_of_scanned hscanned
  have hsentences := Program.sentences_of_ofTokens hinit he htokens
  obtain ⟨us, t, vs, ws, rfl, hus, hs, -⟩ := Grammar.exists_sentence_of_sentences hsentences
  obtain ⟨⟨k, hk, hspelling⟩, hline⟩ := Grammar.keyword_of_sentence hs
  have htext : t.text = e.statement.keyword := by
    have hlexical := Token.lexical_of_scanned hscanned t (by simp)
    rw [Token.Lexical, hk] at hlexical
    exact hlexical.trans hspelling
  have hplaced := Token.placed_of_tokenize hts t (by simp)
  have hsplit : Token.tokenize source = .ok (us ++ (t :: vs ++ (ws ++ [eof]))) := by simpa using hts
  have hpoints := PointsInto.statement hsplit hplaced hp hus hs htext hfront hfails
  rw [← hline] at hpoints
  exact hpoints

end Diagnostic

/-- A source that is not compiled gives a diagnostic of the compiler's own stages, and it points into that source. -/
theorem pointsInto_of_compile {options : Options} {name source : String} {e : CompileError}
    (h : (compile options name source).1 = .error e) :
    e.diagnostic.stage ∈ [Stage.lex, .parse, .codegen] ∧ e.diagnostic.PointsInto source := by
  have hpoints : e.diagnostic.PointsInto source := by
    rcases compile_eq_error h with ⟨e', hp, rfl⟩ | ⟨p, e', hp, hgenerate, rfl⟩
    · cases e' with
      | lex e' => exact Diagnostic.pointsInto_of_lex hp
      | parse e' => exact Diagnostic.pointsInto_of_parse hp
    · obtain ⟨scope, hrun⟩ := generate_eq_error hgenerate
      exact Diagnostic.pointsInto_of_lowering hp hrun
  exact ⟨hpoints.stage_mem, hpoints⟩

def repeatedSource : String := "def a = f(s = \"é\n\", t = b,\n  s = c)"

def repeatedTokens : List Token :=
  [⟨.keyword .defKw, "def", ⟨1, 1⟩⟩, ⟨.identifier, "a", ⟨1, 5⟩⟩, ⟨.mark .assign, "=", ⟨1, 7⟩⟩,
    ⟨.identifier, "f", ⟨1, 9⟩⟩, ⟨.mark .lparen, "(", ⟨1, 10⟩⟩, ⟨.identifier, "s", ⟨1, 11⟩⟩,
    ⟨.mark .assign, "=", ⟨1, 13⟩⟩, ⟨.string, "\"é\n\"", ⟨1, 15⟩⟩, ⟨.mark .comma, ",", ⟨2, 2⟩⟩,
    ⟨.identifier, "t", ⟨2, 4⟩⟩, ⟨.mark .assign, "=", ⟨2, 6⟩⟩, ⟨.identifier, "b", ⟨2, 8⟩⟩, ⟨.mark .comma, ",", ⟨2, 9⟩⟩,
    ⟨.newline, "\n", ⟨2, 10⟩⟩, ⟨.identifier, "s", ⟨3, 3⟩⟩, ⟨.mark .assign, "=", ⟨3, 5⟩⟩, ⟨.identifier, "c", ⟨3, 7⟩⟩,
    ⟨.mark .rparen, ")", ⟨3, 8⟩⟩, ⟨.eof, "", ⟨3, 9⟩⟩]

theorem pointsInto_of_compile_repeatedSource :
    ∃ e, (compile .standard "a.chain" repeatedSource).1 = .error e ∧
      e.diagnostic = ⟨.parse, "expected unique argument, found duplicate argument 's'", some 3, some 3⟩ ∧
      e.diagnostic.PointsInto repeatedSource := by
  have htokens : Token.tokenize repeatedSource = .ok repeatedTokens := rfl
  have hsource : Program.ofSource repeatedSource =
      .error (.parse (.duplicate .argument "s" ⟨.identifier, "s", ⟨3, 3⟩⟩)) :=
    (Program.ofSource_of_tokenize htokens).trans rfl
  have hcompile : (compile .standard "a.chain" repeatedSource).1 =
      .error (.source (.parse (.duplicate .argument "s" ⟨.identifier, "s", ⟨3, 3⟩⟩))) := by
    rw [compile, hsource]
  exact ⟨_, hcompile, by decide, (pointsInto_of_compile hcompile).2⟩

end ChainCompiler
