import ChainCompiler.Proofs.Spelling
import ChainCompiler.Proofs.Tiling

/-! Token texts put together again. The text of a token is scanned as that token wherever a blank or the end comes next,
so the texts of all tokens of a source, with blanks between them, give the same tokens, at other places. -/

namespace ChainCompiler

open Text

/-- A blank or the end of the text comes next. -/
def Spaced (rest : List Char) : Prop := ∀ c ∈ rest.head?, c = ' ' ∨ c = '\t' ∨ c = '\r'

theorem isSkipped_iff {c : Char} : Rule.isSkipped c = true ↔ c = ' ' ∨ c = '\t' ∨ c = '\r' := by
  simp [Rule.isSkipped, or_assoc]

namespace Spaced

variable {rest : List Char}

theorem stops (h : Spaced rest) {p : Char → Bool} (hp : p ' ' = false ∧ p '\t' = false ∧ p '\r' = false) :
    Stops p rest := by
  intro c hc
  rcases h c hc with rfl | rfl | rfl
  · exact hp.1
  · exact hp.2.1
  · exact hp.2.2

theorem ends (h : Spaced rest) : Ends rest := h.stops (by decide)

theorem head?_ne (h : Spaced rest) {c : Char} (hc : c ≠ ' ' ∧ c ≠ '\t' ∧ c ≠ '\r') : rest.head? ≠ some c := by
  intro hhead
  rcases h c hhead with rfl | rfl | rfl <;> simp at hc

end Spaced

namespace Rule

/-- The only rule for a text that starts with a digit is that for numbers. -/
theorem number_of_starts {r : Rule} {c : Char} (hc : c.isDigit = true) (hr : r.starts c = true) : r = .number := by
  have hne : ∀ d, d.isDigit = false → c ≠ d := by
    rintro d hd rfl
    rw [hc] at hd
    cases hd
  have hword : isWordStart c = false := by
    rw [Bool.eq_false_iff]
    intro hstart
    rcases word_of_starts (r := .number) hstart hc with h | h <;> cases h
  cases r with
  | number => rfl
  | blanks =>
    rcases isSkipped_iff.1 hr with h | h | h
    · exact absurd h (hne _ (by decide))
    · exact absurd h (hne _ (by decide))
    · exact absurd h (hne _ (by decide))
  | mark m =>
    obtain ⟨d, hd, hdigit⟩ : ∃ d, m.spelling.toList.head? = some d ∧ d.isDigit = false := by
      cases m <;> exact ⟨_, rfl, by decide⟩
    simp only [starts, hd, beq_iff_eq, Option.some.injEq] at hr
    exact absurd hr.symm (hne d hdigit)
  | keyword => rw [starts, hword] at hr; cases hr
  | identifier => rw [starts, hword] at hr; cases hr
  | _ => exact absurd (beq_iff_eq.1 hr) (hne _ (by decide))

theorem first?_number {text rest : List Char} (h : Lexeme .number text rest) (hne : text ≠ []) :
    first? (text ++ rest) = some (.number, text.length) := by
  obtain ⟨c, cs, rfl⟩ := List.exists_cons_of_ne_nil hne
  refine first?_of_lexeme h fun r hr hlt => ?_
  obtain rfl := number_of_starts (starts_of_lexeme h) hr
  exact absurd hlt (Nat.lt_irrefl _)

/-- The rules that are tried before that of a mark and could start with its first character. -/
theorem before_mark {m : Mark} {c : Char} (hm : m.spelling.toList.head? = some c) {r : Rule} (hr : r.starts c = true)
    (hlt : table.idxOf r < table.idxOf (.mark m)) :
    m = .lbrace ∧ r = .templateVar ∨ m = .assign ∧ r = .mark .arrow := by
  have honly : ∀ r ∈ table, r.starts (m.spelling.toList.headD ' ') = true →
      table.idxOf r < table.idxOf (.mark m) → m = .lbrace ∧ r = .templateVar ∨ m = .assign ∧ r = .mark .arrow := by
    cases m <;> decide
  rw [List.headD_eq_head?_getD, hm] at honly
  exact honly r (mem_table r) hr hlt

theorem first?_mark (m : Mark) {rest : List Char} (hrest : Spaced rest) :
    first? (m.spelling.toList ++ rest) = some (.mark m, m.spelling.toList.length) := by
  have hlexeme : Lexeme (.mark m) m.spelling.toList rest := .mark
  obtain ⟨c, cs, hcs⟩ : ∃ c cs, m.spelling.toList = c :: cs := by cases m <;> exact ⟨_, _, rfl⟩
  have hhead : m.spelling.toList.head? = some c := by rw [hcs]; rfl
  rw [hcs] at hlexeme ⊢
  refine first?_of_lexeme hlexeme fun r hr hlt => ?_
  rcases before_mark hhead hr hlt with ⟨rfl, rfl⟩ | ⟨rfl, rfl⟩
  · cases hcs
    exact templateVar_of_brace (hrest.head?_ne (by decide))
  · cases hcs
    exact arrow_of_assign (hrest.head?_ne (by decide))

/-- A lexeme whose first character no earlier rule can start with is scanned. -/
theorem first?_of_sole {r : Rule} {c : Char} {text rest : List Char} (h : Lexeme r (c :: text) rest)
    (hsole : ∀ r' ∈ table, r'.starts c = true → table.idxOf r ≤ table.idxOf r') :
    first? (c :: text ++ rest) = some (r, (c :: text).length) :=
  first?_of_lexeme h fun r' hr' hlt => absurd hlt (Nat.not_lt.2 (hsole r' (mem_table r') hr'))

/-- What gave a token gives the same token when a blank or the end comes after it. -/
theorem first?_of_spaced {r : Rule} {text before rest : List Char} (h : Lexeme r text before) (hne : text ≠ [])
    (hfirst : first? (text ++ before) = some (r, text.length)) (hkind : r.kind? (String.ofList text) ≠ none)
    (hrest : Spaced rest) : first? (text ++ rest) = some (r, text.length) := by
  cases h with
  | blanks => exact absurd rfl hkind
  | comment => exact absurd rfl hkind
  | newline => exact first?_newline rest
  | rawString hbody => exact first?_of_sole (.rawString hbody) (by decide)
  | @mark m => exact first?_mark m hrest
  | templateVar hname => exact first?_of_sole (.templateVar hname) (by decide)
  | @keyword k => exact first?_keyword k hrest.ends
  | number hwhole hdigits hfraction =>
    refine first?_number (.number hwhole hdigits hfraction (hrest.stops (by decide)) ?_) hne
    rintro - cs rfl
    exact absurd rfl (hrest.head?_ne (c := '.') (by decide))
  | string hbody => exact first?_string hbody (hrest.head?_ne (by decide))
  | identifier hname hstops =>
    have hfree := Token.isFreeName_of_first? hname hstops hfirst
    have hagain := first?_name hfree hrest.ends
    rwa [String.toList_ofList] at hagain

end Rule

namespace Token

/-- In front of a blank or the end, the text of the token is scanned as the token. -/
def Detaches (t : Token) : Prop :=
  ∀ pos rest, Spaced rest →
    scan pos 0 (t.text.toList ++ rest) = (scan (pos.after t.text.toList) 0 rest).map ({ t with pos := pos } :: ·)

theorem detaches_of_mem_emit {r : Rule} {text before : List Char} {pos : Position} {t : Token}
    (hlexeme : Lexeme r text before) (hne : text ≠ []) (hfirst : Rule.first? (text ++ before) = some (r, text.length))
    (ht : t ∈ r.emit text pos) : t.Detaches := by
  intro pos' rest hrest
  cases hkind : r.kind? (String.ofList text) with
  | none =>
    rw [Rule.emit, hkind] at ht
    cases ht
  | some kind =>
    rw [Rule.emit, hkind] at ht
    obtain rfl := List.mem_singleton.1 ht
    have hagain := Rule.first?_of_spaced hlexeme hne hfirst (by simp [hkind]) hrest
    rw [String.toList_ofList, scan_lexeme hne hagain, Rule.emit, hkind]
    rfl

/-- Every token of a source but the last has a text that gives it again. -/
theorem detaches_of_scanned {pos : Position} {cs : List Char} {ts : List Token} (h : Scanned pos cs (.ok ts)) :
    ∀ t ∈ ts, t.kind ≠ .eof → t.Detaches := by
  generalize hresult : Except.ok ts = result at h
  induction h generalizing ts with
  | done =>
    cases hresult
    intro t ht heof
    obtain rfl := List.mem_singleton.1 ht
    exact absurd rfl heof
  | stuck => cases hresult
  | @lexeme pos r text rest result hfirst hne hlexeme _ ih =>
    cases result with
    | error e => cases hresult
    | ok us =>
      cases hresult
      intro t ht heof
      rcases List.mem_append.1 ht with ht | ht
      · exact detaches_of_mem_emit hlexeme hne hfirst ht
      · exact ih rfl t ht heof

theorem scan_run {run : List Char} (hrun : ∀ c ∈ run, c = ' ' ∨ c = '\t' ∨ c = '\r') (pos : Position)
    (rest : List Char) : scan pos 0 (run ++ rest) = scan (pos.after run) 0 rest := by
  induction run generalizing pos with
  | nil => rfl
  | cons c run ih =>
    rw [List.forall_mem_cons] at hrun
    rw [List.cons_append, scan_skipped (isSkipped_iff.2 hrun.1), ih hrun.2, Position.after_cons]

/-- The text consists of the texts of the tokens, with a run of blanks at each joint. -/
inductive Rejoined : List Token → List Char → Prop
  | last {t} : Rejoined [t] t.text.toList
  | cons {t run ts cs} :
      run ≠ [] → (∀ c ∈ run, c = ' ' ∨ c = '\t' ∨ c = '\r') → Rejoined ts cs →
      Rejoined (t :: ts) (t.text.toList ++ (run ++ cs))

def face (t : Token) : Kind × String := (t.kind, t.text)

theorem scan_rejoined {init : List Token} {place : Position} (hinit : ∀ t ∈ init, t.Detaches) {cs : List Char}
    (h : Rejoined (init ++ [eofAt place]) cs) (pos : Position) :
    ∃ us, scan pos 0 cs = .ok us ∧ us.map face = (init ++ [eofAt place]).map face := by
  induction init generalizing cs pos with
  | nil =>
    cases h with
    | last => exact ⟨[eofAt pos], rfl, rfl⟩
    | cons _ _ h => cases h
  | cons t init ih =>
    rw [List.forall_mem_cons] at hinit
    generalize hts : t :: init ++ [eofAt place] = ts at h
    cases h with
    | last => simp at hts
    | @cons t' run ts cs hne hrun hrest =>
      obtain ⟨rfl, rfl⟩ := List.cons.inj hts
      have hspaced : Spaced (run ++ cs) := by
        obtain ⟨c, run, rfl⟩ := List.exists_cons_of_ne_nil hne
        intro d hd
        obtain rfl : c = d := by simpa using hd
        exact hrun c (by simp)
      obtain ⟨us, hscan, hus⟩ := ih hinit.2 hrest ((pos.after t.text.toList).after run)
      refine ⟨{ t with pos := pos } :: us, ?_, ?_⟩
      · rw [hinit.1 pos _ hspaced, scan_run hrun, hscan]
        rfl
      · rw [List.map_cons, hus]
        rfl

/-- The texts of the tokens of a source, put together with blanks at each joint, give tokens of the same kinds with the
same texts. -/
theorem tokenize_rejoined {source : String} {ts : List Token} (h : tokenize source = .ok ts) {text : String}
    (htext : Rejoined ts text.toList) :
    ∃ us, tokenize text = .ok us ∧ us.map face = ts.map face := by
  have hscanned := scanned_of_tokenize h
  obtain ⟨init, rfl, -⟩ : Accounts [] source.toList (.ok ts) := accounts_of_scanned hscanned rfl
  have hinit := (endsOnce_of_scanned hscanned).ne_eof
  refine scan_rejoined (fun t ht => ?_) htext .start
  exact detaches_of_scanned hscanned t (by simp [ht]) (hinit t ht)

/-- Three braces and three quotes in a row, of which only two belong together each time. -/
def crowdedTokens : List Token :=
  [⟨.mark .lbrace, "\x7b", ⟨1, 1⟩⟩, ⟨.templateVar, "\x7b\x7ba\x7d\x7d", ⟨1, 2⟩⟩, ⟨.mark .assign, "=", ⟨1, 7⟩⟩,
    ⟨.string, "\"\"", ⟨1, 8⟩⟩, ⟨.string, "\"x\"", ⟨1, 10⟩⟩, ⟨.eof, "", ⟨1, 13⟩⟩]

theorem tokenize_rejoined_crowdedTokens :
    tokenize "\x7b\x7b\x7ba\x7d\x7d=\"\"\"x\"" = .ok crowdedTokens ∧
      ∃ us, tokenize "\x7b \x7b\x7ba\x7d\x7d\t=\r\"\"  \"x\" \t" = .ok us ∧ us.map face = crowdedTokens.map face := by
  have htokens : tokenize "\x7b\x7b\x7ba\x7d\x7d=\"\"\"x\"" = .ok crowdedTokens := rfl
  have hrejoined : Rejoined crowdedTokens
      ("\x7b".toList ++ ([' '] ++ ("\x7b\x7ba\x7d\x7d".toList ++ (['\t'] ++ ("=".toList ++ (['\r'] ++
        ("\"\"".toList ++ ([' ', ' '] ++ ("\"x\"".toList ++ ([' ', '\t'] ++ "".toList)))))))))) :=
    .cons (by simp) (by simp) (.cons (by simp) (by simp) (.cons (by simp) (by simp)
      (.cons (by simp) (by simp) (.cons (by simp) (by simp) .last))))
  exact ⟨htokens, tokenize_rejoined htokens hrejoined⟩

end Token

end ChainCompiler
