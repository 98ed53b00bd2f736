import ChainCompiler.Proofs.Deciding
import ChainCompiler.Proofs.Grammar
import ChainCompiler.Proofs.Relexing
import ChainCompiler.Script.Layout

/-! Texts that spell phrases. A text spells a phrase when it is scanned as tokens of that phrase, whatever comes after
it within a given limit. Spelling is put together like the text itself: from words, marks and gaps to members between
brackets, on one line or on many. -/

namespace ChainCompiler

open Text

/-- In front of any text with the property `F`, the text `cs` is scanned as tokens with the property `L`. -/
def Spells (F : List Char → Prop) (cs : List Char) (L : List Token → Prop) : Prop :=
  ∀ pos rest, F rest →
    ∃ ts, L ts ∧ Token.scan pos 0 (cs ++ rest) = (Token.scan (pos.after cs) 0 rest).map (ts ++ ·)

/-- Nothing is asked of the text that follows. -/
def Anything (_ : List Char) : Prop := True

/-- What follows starts neither with a character of a word nor with a quote. -/
def Ends (rest : List Char) : Prop := Stops (fun c => isWordChar c || c == '"') rest

theorem ends_cons {c : Char} (hc : (isWordChar c || c == '"') = false) (rest : List Char) : Ends (c :: rest) := by
  intro d hd
  obtain rfl : c = d := by simpa using hd
  exact hc

theorem Ends.stops {rest : List Char} (h : Ends rest) : Stops isWordChar rest := by
  intro c hc
  have hend := h c hc
  rw [Bool.or_eq_false_iff] at hend
  exact hend.1

theorem Ends.head?_ne {rest : List Char} (h : Ends rest) : rest.head? ≠ some '"' := by
  intro hquote
  exact absurd (h '"' hquote) (by decide)

namespace Token

theorem scan_blanks {run more : List Char} (hrun : ∀ c ∈ run, Rule.isSkipped c = true)
    (hmore : Stops Rule.isSkipped more) (pos : Position) : scan pos 0 (run ++ more) = scan (pos.after run) 0 more := by
  rcases run with _ | ⟨c, cs⟩
  · rfl
  have hfirst : Rule.first? (c :: cs ++ more) = some (.blanks, (c :: cs).length) := by
    apply Rule.first?_of_lexeme (.blanks (by simp) hrun hmore)
    intro r _ hr
    exact absurd hr (by simp [Rule.table])
  rw [scan_lexeme (by simp) hfirst]
  cases scan (pos.after (c :: cs)) 0 more <;> rfl

/-- A blank is passed over, also when more blanks follow it. -/
theorem scan_skipped {c : Char} (hc : Rule.isSkipped c = true) (pos : Position) (rest : List Char) :
    scan pos 0 (c :: rest) = scan (pos.next c) 0 rest := by
  obtain ⟨run, more, rfl, -, hrun, hmore⟩ := exists_span Rule.isSkipped rest
  have hall : ∀ d ∈ c :: run, Rule.isSkipped d = true := by simpa [hc] using hrun
  rw [← List.cons_append, scan_blanks hall hmore, scan_blanks hrun hmore, Position.after_cons]

end Token

namespace Spells

variable {F G : List Char → Prop} {a b cs : List Char} {L M : List Token → Prop}

theorem imp (h : Spells F cs L) (hLM : ∀ ts, L ts → M ts) : Spells F cs M := by
  intro pos rest hrest
  obtain ⟨ts, hts, hscan⟩ := h pos rest hrest
  exact ⟨ts, hLM ts hts, hscan⟩

theorem nil : Spells F [] (· = []) := by
  intro pos rest _
  refine ⟨[], rfl, ?_⟩
  rw [List.nil_append, Position.after_nil]
  cases Token.scan pos 0 rest <;> rfl

/-- Texts one after the other, when the second one may follow the first. -/
theorem append (ha : Spells F a L) (hb : Spells G b M) (hab : ∀ rest, G rest → F (b ++ rest)) :
    Spells G (a ++ b) fun ts => ∃ us vs, ts = us ++ vs ∧ L us ∧ M vs := by
  intro pos rest hrest
  obtain ⟨us, hus, hscan⟩ := ha pos (b ++ rest) (hab rest hrest)
  obtain ⟨vs, hvs, hscan'⟩ := hb (pos.after a) rest hrest
  refine ⟨us ++ vs, ⟨us, vs, rfl, hus, hvs⟩, ?_⟩
  rw [List.append_assoc, hscan, hscan', Position.after_append]
  cases Token.scan ((pos.after a).after b) 0 rest with
  | error e => rfl
  | ok ws => simp [Except.map]

/-- A lexeme spells the token of its rule. -/
theorem lexeme {r : Rule} (hne : cs ≠ []) (h : ∀ rest, F rest → Rule.first? (cs ++ rest) = some (r, cs.length)) :
    Spells F cs fun ts => ∃ pos, ts = r.emit cs pos := by
  intro pos rest hrest
  exact ⟨r.emit cs pos, ⟨pos, rfl⟩, Token.scan_lexeme hne (h rest hrest)⟩

/-- A blank in front changes nothing. -/
theorem blank (h : Spells F cs L) : Spells F (' ' :: cs) L := by
  intro pos rest hrest
  obtain ⟨ts, hts, hscan⟩ := h (pos.next ' ') rest hrest
  refine ⟨ts, hts, ?_⟩
  rw [List.cons_append, Token.scan_skipped (by decide), hscan, Position.after_cons]

end Spells

def IsToken (k : Kind) (ts : List Token) : Prop := ∃ t, ts = [t] ∧ t.kind = k

def IsGap (cs : List Char) : Prop := ∀ c ∈ cs, c = ' ' ∨ c = '\n'

theorem isGap_indent (level : Nat) : IsGap (Script.indent level) := by
  intro c hc
  exact .inl (List.mem_replicate.1 hc).2

theorem IsGap.append {a b : List Char} (ha : IsGap a) (hb : IsGap b) : IsGap (a ++ b) := by
  intro c hc
  rcases List.mem_append.1 hc with h | h
  · exact ha c h
  · exact hb c h

theorem IsGap.ends {gap rest : List Char} (h : IsGap gap) (hrest : Ends rest) : Ends (gap ++ rest) := by
  rcases gap with _ | ⟨c, cs⟩
  · exact hrest
  apply ends_cons
  rcases h c (by simp) with rfl | rfl <;> decide

theorem spells_newline : Spells Anything ['\n'] (IsToken .newline) := by
  refine (Spells.lexeme (by simp) fun rest _ => Rule.first?_newline rest).imp ?_
  rintro _ ⟨pos, rfl⟩
  exact ⟨_, rfl, rfl⟩

/-- A gap spells the newlines in it. -/
theorem spells_gap {gap : List Char} (h : IsGap gap) : Spells Anything gap Grammar.Newlines := by
  induction gap with
  | nil =>
    refine Spells.nil.imp ?_
    rintro _ rfl
    exact Grammar.newlines_nil
  | cons c cs ih =>
    have hcs : IsGap cs := fun d hd => h d (by simp [hd])
    rcases h c (by simp) with rfl | rfl
    · exact (ih hcs).blank
    · refine (spells_newline.append (ih hcs) fun _ _ => trivial).imp ?_
      rintro _ ⟨us, vs, rfl, ⟨t, rfl, ht⟩, hvs⟩
      exact Grammar.Newlines.append (by simpa [Grammar.Newlines] using ht) hvs

theorem spells_mark {F : List Char → Prop} {m : Mark} {c : Char} (hm : m.spelling.toList = [c])
    (hbefore : ∀ rest, F rest → ∀ r, r.starts c = true →
      Rule.table.idxOf r < Rule.table.idxOf (.mark m) → r.length? (c :: rest) = none) :
    Spells F [c] (IsToken (.mark m)) := by
  have hfirst : ∀ rest, F rest → Rule.first? ([c] ++ rest) = some (.mark m, [c].length) := by
    intro rest hrest
    have hlexeme : Lexeme (.mark m) [c] rest := by rw [← hm]; exact .mark
    exact Rule.first?_of_lexeme hlexeme (hbefore rest hrest)
  refine (Spells.lexeme (by simp) hfirst).imp ?_
  rintro _ ⟨pos, rfl⟩
  exact ⟨_, rfl, rfl⟩

/-- A mark whose first character starts no earlier lexeme. -/
theorem spells_sole_mark {m : Mark} {c : Char} (hm : m.spelling.toList = [c])
    (honly : ∀ r ∈ Rule.table, r.starts c = true → Rule.table.idxOf (.mark m) ≤ Rule.table.idxOf r) :
    Spells Anything [c] (IsToken (.mark m)) := by
  apply spells_mark hm
  intro rest _ r hr hlt
  exact absurd hlt (Nat.not_lt.2 (honly r (Rule.mem_table r) hr))

theorem spells_comma : Spells Anything [','] (IsToken (.mark .comma)) := spells_sole_mark rfl (by decide)

theorem spells_colon : Spells Anything [':'] (IsToken (.mark .colon)) := spells_sole_mark rfl (by decide)

theorem spells_lbracket : Spells Anything ['['] (IsToken (.mark .lbracket)) := spells_sole_mark rfl (by decide)

theorem spells_rbracket : Spells Anything [']'] (IsToken (.mark .rbracket)) := spells_sole_mark rfl (by decide)

theorem spells_rbrace : Spells Anything ['\x7d'] (IsToken (.mark .rbrace)) := spells_sole_mark rfl (by decide)

/-- A brace starts no variable unless another one follows it. -/
theorem templateVar_of_brace {rest : List Char} (hrest : rest.head? ≠ some '\x7b') :
    Rule.templateVar.length? ('\x7b' :: rest) = none := by
  have hafter : Rule.after? ['\x7b', '\x7b'] ('\x7b' :: rest) = none := by
    rcases rest with _ | ⟨c, cs⟩
    · rfl
    have hc : c ≠ '\x7b' := by simpa using hrest
    simp [Rule.after?, Ne.symm hc]
  simp [Rule.length?, Rule.templateVarLength?, hafter]

/-- A brace opens an object unless another one follows it. -/
theorem spells_lbrace : Spells (fun rest => rest.head? ≠ some '\x7b') ['\x7b'] (IsToken (.mark .lbrace)) := by
  apply spells_mark rfl
  intro rest hrest r hr hlt
  have honly : ∀ r ∈ Rule.table, r.starts '\x7b' = true →
      Rule.table.idxOf r < Rule.table.idxOf (.mark .lbrace) → r = .templateVar := by decide
  obtain rfl := honly r (Rule.mem_table r) hr hlt
  exact templateVar_of_brace hrest

/-- An equals sign starts no arrow unless an angle follows it. -/
theorem arrow_of_assign {rest : List Char} (hrest : rest.head? ≠ some '>') :
    (Rule.mark .arrow).length? ('=' :: rest) = none := by
  rcases rest with _ | ⟨c, cs⟩
  · rfl
  have hc : c ≠ '>' := by simpa using hrest
  simp [Rule.length?, Rule.after?, Mark.spelling, Ne.symm hc]

/-- An equals sign stands alone unless an angle follows it. -/
theorem spells_assign : Spells (fun rest => rest.head? ≠ some '>') ['='] (IsToken (.mark .assign)) := by
  apply spells_mark rfl
  intro rest hrest r hr hlt
  have honly : ∀ r ∈ Rule.table, r.starts '=' = true →
      Rule.table.idxOf r < Rule.table.idxOf (.mark .assign) → r = .mark .arrow := by decide
  obtain rfl := honly r (Rule.mem_table r) hr hlt
  exact arrow_of_assign hrest

/-- The letters come after all digits. -/
theorem not_isDigit_of_isAlpha {c : Char} (h : c.isAlpha = true) : ¬ c.isDigit = true := by
  intro hdigit
  have hnine : c.val ≤ '9'.val := of_decide_eq_true (Bool.and_eq_true_iff.1 hdigit).2
  rcases Bool.or_eq_true_iff.1 h with hletter | hletter
  · have hfirst : 'A'.val ≤ c.val := (of_decide_eq_true hletter).1
    exact absurd (UInt32.le_trans hfirst hnine) (by decide)
  · have hfirst : 'a'.val ≤ c.val := of_decide_eq_true (Bool.and_eq_true_iff.1 hletter).1
    exact absurd (UInt32.le_trans hfirst hnine) (by decide)

/-- The only rules for a text that starts like a word are those for words. -/
theorem word_of_starts {r : Rule} {c : Char} (hc : isWordStart c = true) (hr : r.starts c = true) :
    r = .keyword ∨ r = .identifier := by
  have hne : ∀ d, isWordStart d = false → c ≠ d := by
    rintro d hd rfl
    rw [hc] at hd
    cases hd
  cases r with
  | keyword => exact .inl rfl
  | identifier => exact .inr rfl
  | blanks =>
    simp only [Rule.starts, Rule.isSkipped, Bool.or_eq_true, beq_iff_eq] at hr
    rcases hr with (hr | hr) | hr
    · exact absurd hr (hne _ (by decide))
    · exact absurd hr (hne _ (by decide))
    · exact absurd hr (hne _ (by decide))
  | mark m =>
    obtain ⟨d, hd, hstart⟩ : ∃ d, m.spelling.toList.head? = some d ∧ isWordStart d = false := by
      cases m <;> exact ⟨_, rfl, by decide⟩
    simp only [Rule.starts, hd, beq_iff_eq, Option.some.injEq] at hr
    exact absurd hr.symm (hne d hstart)
  | number =>
    simp only [isWordStart, Bool.or_eq_true, beq_iff_eq] at hc
    rcases hc with hc | rfl
    · exact absurd hr (not_isDigit_of_isAlpha hc)
    · cases hr
  | _ => exact absurd (beq_iff_eq.1 hr) (hne _ (by decide))

/-- Keywords are tried before names, but a free name is none. -/
theorem first?_name {name : String} (h : IsFreeName name) {rest : List Char} (hrest : Ends rest) :
    Rule.first? (name.toList ++ rest) = some (.identifier, name.toList.length) := by
  obtain ⟨hname, hfree⟩ := h
  have hlexeme : Lexeme .identifier name.toList rest := .identifier hname hrest.stops
  have hkeyword : Rule.keyword.length? (name.toList ++ rest) = none := by
    have hnone : Keyword.ofSpelling? name = none := by
      rw [Option.eq_none_iff_forall_ne_some]
      intro k hk
      exact hfree k (Keyword.spelling_of_ofSpelling? hk).symm
    simp only [Rule.length?, takeWhile_append_of_stops (isWordChar_of_isIdentifier hname) hrest.stops,
      String.ofList_toList, hnone, Option.map_none]
  cases hcs : name.toList with
  | nil => rw [hcs] at hname; cases hname
  | cons c cs =>
    rw [hcs] at hlexeme hkeyword hname
    apply Rule.first?_of_lexeme hlexeme
    intro r hr hlt
    rw [isIdentifier, Bool.and_eq_true] at hname
    rcases word_of_starts hname.1 hr with rfl | rfl
    · exact hkeyword
    · exact absurd hlt (Nat.lt_irrefl _)

/-- A free name spells itself. -/
theorem spells_name {name : String} (h : IsFreeName name) :
    Spells Ends name.toList fun ts => ∃ t, ts = [t] ∧ t.kind = .identifier ∧ t.text = name := by
  have hne : name.toList ≠ [] := by
    intro hnil
    have hname := h.1
    rw [hnil] at hname
    cases hname
  refine (Spells.lexeme hne fun _ => first?_name h).imp ?_
  rintro _ ⟨pos, rfl⟩
  exact ⟨_, rfl, rfl, String.ofList_toList⟩

theorem first?_keyword (k : Keyword) {rest : List Char} (hrest : Ends rest) :
    Rule.first? (k.spelling.toList ++ rest) = some (.keyword, k.spelling.toList.length) := by
  have hlexeme : Lexeme .keyword k.spelling.toList rest := .keyword hrest.stops
  have hword := isIdentifier_spelling k
  cases hcs : k.spelling.toList with
  | nil => rw [hcs] at hword; cases hword
  | cons c cs =>
    rw [hcs] at hlexeme hword
    apply Rule.first?_of_lexeme hlexeme
    intro r hr hlt
    rw [isIdentifier, Bool.and_eq_true] at hword
    rcases word_of_starts hword.1 hr with rfl | rfl
    · exact absurd hlt (Nat.lt_irrefl _)
    · simp [Rule.table] at hlt

theorem emit_keyword (k : Keyword) (pos : Position) :
    Rule.keyword.emit k.spelling.toList pos = [⟨.keyword k, k.spelling, pos⟩] := by
  simp [Rule.emit, Rule.kind?_spelling]

/-- Any word spells a name: a keyword or an identifier. -/
theorem spells_word {name : String} (h : isIdentifier name.toList = true) :
    Spells Ends name.toList fun ts => ∃ t, ts = [t] ∧ Grammar.IsName t ∧ t.text = name := by
  by_cases hfree : ∀ k : Keyword, name ≠ k.spelling
  · refine (spells_name ⟨h, hfree⟩).imp ?_
    rintro _ ⟨t, rfl, hkind, htext⟩
    exact ⟨t, rfl, .inl hkind, htext⟩
  · push Not at hfree
    obtain ⟨k, rfl⟩ := hfree
    have hne : k.spelling.toList ≠ [] := by cases k <;> decide
    refine (Spells.lexeme hne fun _ => first?_keyword k).imp ?_
    rintro _ ⟨pos, rfl⟩
    exact ⟨_, emit_keyword k pos, .inr ⟨k, rfl⟩, rfl⟩

/-- A string is not taken for a raw one when no quote comes after it. -/
theorem first?_string {body rest : List Char} (h : Units body) (hrest : rest.head? ≠ some '"') :
    Rule.first? ('"' :: body ++ ['"'] ++ rest) = some (.string, ('"' :: body ++ ['"']).length) := by
  have hlexeme : Lexeme .string ('"' :: (body ++ ['"'])) rest := .string h
  refine Rule.first?_of_lexeme hlexeme fun r hr hlt => ?_
  have honly : ∀ r ∈ Rule.table, r.starts '"' = true →
      Rule.table.idxOf r < Rule.table.idxOf .string → r = .rawString := by decide
  obtain rfl := honly r (Rule.mem_table r) hr hlt
  have hafter : Rule.after? ['"', '"', '"'] ('"' :: (body ++ ['"']) ++ rest) = none := by
    rw [Rule.after?, if_neg]
    rw [List.isPrefixOf_iff_prefix]
    have hnot := not_quotes_prefix h hrest
    simpa using hnot
  change (Rule.after? ['"', '"', '"'] ('"' :: (body ++ ['"']) ++ rest)).bind _ = none
  rw [hafter, Option.bind_none]

/-- Quoted text spells a string with that text as its contents. -/
theorem spells_quote {text : String} (h : ∀ c ∈ text.toList, Readable c) :
    Spells Ends (quote text).toList fun ts =>
      ∃ t, ts = [t] ∧ t.kind = .string ∧ Literal.unquote t.text = text := by
  have hfirst : ∀ rest, Ends rest →
      Rule.first? ((quote text).toList ++ rest) = some (.string, (quote text).toList.length) := by
    intro rest hrest
    rw [toList_quote]
    exact first?_string (units_escape _) hrest.head?_ne
  refine (Spells.lexeme (by simp [toList_quote]) hfirst).imp ?_
  rintro _ ⟨pos, rfl⟩
  exact ⟨_, rfl, rfl, by simp only [String.ofList_toList, unquote_quote h]⟩

section Members

open Grammar Script

variable {α : Type} {M : Phrases α}

/-- Members with commas between them spell a sequence of members, with the gap after the last one. -/
theorem spells_joined {sep : String} {space gap : List Char} (hsep : sep.toList = ',' :: space) (hspace : IsGap space)
    (hgap : IsGap gap) {ms : List (List Char)} {xs : List α} (h : List.Forall₂ (fun m x => Spells Ends m (M · x)) ms xs)
    (hne : ms ≠ []) : Spells Ends (joined sep ms ++ gap) (Members M · xs) := by
  have hends : ∀ rest, Ends rest → Ends (gap ++ rest) := fun _ => hgap.ends
  induction h with
  | nil => exact absurd rfl hne
  | @cons m x ms xs hm hms ih =>
    rcases ms with _ | ⟨m', ms⟩
    · cases hms
      have hlast := hm.append (G := Ends) (fun pos rest _ => spells_gap hgap pos rest trivial) hends
      rw [joined, List.intercalate_singleton]
      refine hlast.imp ?_
      rintro _ ⟨us, vs, rfl, hus, hvs⟩
      exact .last hus hvs
    · have hmore := ih (by simp)
      have hcomma := spells_comma.append (spells_gap hspace) fun _ _ => trivial
      have htail := hcomma.append hmore fun _ _ => trivial
      have hall := hm.append htail fun rest _ => ends_cons (by decide) _
      have htext : joined sep (m :: m' :: ms) ++ gap = m ++ ([','] ++ space ++ (joined sep (m' :: ms) ++ gap)) := by
        simp [joined, List.intercalate_cons_cons, hsep]
      rw [htext]
      refine hall.imp ?_
      rintro _ ⟨ts, _, rfl, hts, _, us, rfl, ⟨_, nl, rfl, ⟨comma, rfl, hkind⟩, hnl⟩, hus⟩
      have hmembers : Members M (ts ++ ([] ++ comma :: (nl ++ us))) (x :: xs) := .cons hts newlines_nil hkind hnl hus
      simpa using hmembers

/-- Members between brackets, with gaps inside the brackets. -/
theorem spells_brackets {F : List Char → Prop} {o c : Mark} {open' close : Char} {sep : String}
    {space before after : List Char} (ho : Spells F [open'] (IsToken (.mark o)))
    (hc : Spells Anything [close] (IsToken (.mark c))) (hclose : ∀ rest, Ends (close :: rest))
    (hsep : sep.toList = ',' :: space) (hspace : IsGap space) (hbefore : IsGap before) (hafter : IsGap after)
    {ms : List (List Char)} {xs : List α} (h : List.Forall₂ (fun m x => Spells Ends m (M · x)) ms xs) (hne : ms ≠ [])
    (hF : ∀ rest, F (before ++ joined sep ms ++ after ++ close :: rest)) :
    Spells Anything ([open'] ++ before ++ joined sep ms ++ after ++ [close]) (Bracketed o c (Members M) · xs) := by
  have hmembers := spells_joined hsep hspace hafter h hne
  have hinside := hmembers.append hc fun rest _ => hclose rest
  have hgap := (spells_gap hbefore).append hinside fun _ _ => trivial
  have hall := ho.append hgap fun rest _ => by simpa using hF rest
  have htext : [open'] ++ before ++ joined sep ms ++ after ++ [close] =
      [open'] ++ (before ++ (joined sep ms ++ after ++ [close])) := by simp
  rw [htext]
  refine hall.imp ?_
  rintro _ ⟨_, _, rfl, ⟨t, rfl, ht⟩, nl, _, rfl, hnl, us, _, rfl, hus, u, rfl, hu⟩
  exact .mk ht hnl hus hu

theorem spells_empty {F : List Char → Prop} {o c : Mark} {open' close : Char}
    (ho : Spells F [open'] (IsToken (.mark o))) (hc : Spells Anything [close] (IsToken (.mark c)))
    (hF : ∀ rest, F (close :: rest)) : Spells Anything [open', close] (Bracketed o c (Members M) · []) := by
  refine (ho.append hc fun rest _ => hF rest).imp ?_
  rintro _ ⟨_, _, rfl, ⟨t, rfl, ht⟩, u, rfl, hu⟩
  have hempty : Bracketed o c (Members M) (t :: ([] ++ ([] ++ [u]))) [] := .mk ht newlines_nil .nil hu
  exact hempty

theorem spells_oneLine {F : List Char → Prop} {o c : Mark} {open' close : Char} {opening closing : String}
    {before after : List Char} (ho : Spells F [open'] (IsToken (.mark o)))
    (hc : Spells Anything [close] (IsToken (.mark c))) (hclose : ∀ rest, Ends (close :: rest))
    (hopening : opening.toList = open' :: before) (hclosing : closing.toList = after ++ [close])
    (hbefore : IsGap before) (hafter : IsGap after) {ms : List (List Char)} {xs : List α}
    (h : List.Forall₂ (fun m x => Spells Ends m (M · x)) ms xs) (hne : ms ≠ [])
    (hF : ∀ rest, F (before ++ joined ", " ms ++ after ++ close :: rest)) :
    Spells Anything (oneLine opening closing ms) (Bracketed o c (Members M) · xs) := by
  have hspace : IsGap [' '] := by simp [IsGap]
  have hall := spells_brackets ho hc hclose rfl hspace hbefore hafter h hne hF
  have htext : oneLine opening closing ms = [open'] ++ before ++ joined ", " ms ++ after ++ [close] := by
    simp [oneLine, hopening, hclosing]
  rwa [htext]

theorem spells_indented {F : List Char → Prop} {cs : List Char} {L : List Token → Prop} (level : Nat)
    (h : Spells F cs L) : Spells F (indent level ++ cs) L := by
  unfold indent
  induction 4 * level with
  | zero => exact h
  | succ n ih =>
    rw [List.replicate_succ, List.cons_append]
    exact ih.blank

theorem spells_manyLines {F : List Char → Prop} {o c : Mark} {open' close : Char} {opening closing : String}
    (ho : Spells F [open'] (IsToken (.mark o))) (hc : Spells Anything [close] (IsToken (.mark c)))
    (hclose : ∀ rest, Ends (close :: rest)) (hopening : opening.toList = [open']) (hclosing : closing.toList = [close])
    (level : Nat) {ms : List (List Char)} {xs : List α} (h : List.Forall₂ (fun m x => Spells Ends m (M · x)) ms xs)
    (hne : ms ≠ []) (hF : ∀ rest, F ('\n' :: rest)) :
    Spells Anything (manyLines opening closing level ms) (Bracketed o c (Members M) · xs) := by
  have hbreak : IsGap ['\n'] := by simp [IsGap]
  have hmembers : List.Forall₂ (fun m x => Spells Ends m (M · x)) (ms.map (indent (level + 1) ++ ·)) xs := by
    rw [List.forall₂_map_left_iff]
    exact h.imp fun m x hm => spells_indented (level + 1) hm
  have hsep : ",\n".toList = ',' :: ['\n'] := rfl
  have hall := spells_brackets ho hc hclose hsep hbreak hbreak (hbreak.append (isGap_indent level)) hmembers
    (by simpa using hne) fun rest => by simpa using hF _
  have htext : manyLines opening closing level ms =
      [open'] ++ ['\n'] ++ joined ",\n" (ms.map (indent (level + 1) ++ ·)) ++ (['\n'] ++ indent level) ++ [close] := by
    simp [manyLines, hopening, hclosing]
  rwa [htext]

end Members

end ChainCompiler
