import ChainCompiler.Proofs.Numeral
import ChainCompiler.Token.Rule
import Mathlib.Data.List.Infix
import Mathlib.Data.List.TakeWhile

/-! What the rules take. Each rule takes lexemes of one shape, as far as that shape goes, and the first rule in the
table that takes something decides. Where none does, the text starts in one of four ways. -/

namespace ChainCompiler

open Text

/-- No character with the property comes next. -/
def Stops (p : Char → Bool) (rest : List Char) : Prop := ∀ c ∈ rest.head?, p c = false

/-- The inside of a string literal: backslashes, each with the character after it, and other characters. -/
inductive Units : List Char → Prop
  | nil : Units []
  | plain {c cs} : c ≠ '"' → c ≠ '\\' → Units cs → Units (c :: cs)
  | escape {c cs} : Units cs → Units ('\\' :: c :: cs)

/-- The rule takes the first text when it stands in front of the second. -/
inductive Lexeme : Rule → List Char → List Char → Prop
  | blanks {text rest} :
      text ≠ [] → (∀ c ∈ text, Rule.isSkipped c = true) → Stops Rule.isSkipped rest → Lexeme .blanks text rest
  | comment {body rest} :
      '\n' ∉ body → Stops (· != '\n') rest → Lexeme .comment ('/' :: '/' :: body) rest
  | newline {rest} : Lexeme .newline ['\n'] rest
  | rawString {body rest} :
      ¬ ['"', '"', '"'] <:+: body ++ ['"', '"'] → Lexeme .rawString (['"', '"', '"'] ++ body ++ ['"', '"', '"']) rest
  | mark {m rest} : Lexeme (.mark m) m.spelling.toList rest
  | templateVar {name rest} :
      isIdentifier name = true → Lexeme .templateVar (['\x7b', '\x7b'] ++ name ++ ['\x7d', '\x7d']) rest
  | keyword {k rest} : Stops isWordChar rest → Lexeme .keyword (Keyword.spelling k).toList rest
  | number {whole fraction rest} :
      whole ≠ [] → (∀ d ∈ whole, d.isDigit = true) → IsFraction fraction → Stops Char.isDigit rest →
      (fraction = [] → ∀ cs, rest = '.' :: cs → Stops Char.isDigit cs) → Lexeme .number (whole ++ fraction) rest
  | string {body rest} : Units body → Lexeme .string ('"' :: body ++ ['"']) rest
  | identifier {name rest} : isIdentifier name = true → Stops isWordChar rest → Lexeme .identifier name rest

/-- A text is cut where a property first fails. -/
theorem exists_span (p : Char → Bool) (cs : List Char) :
    ∃ front rest, cs = front ++ rest ∧ cs.takeWhile p = front ∧ (∀ c ∈ front, p c = true) ∧ Stops p rest := by
  refine ⟨_, cs.dropWhile p, List.takeWhile_append_dropWhile.symm, rfl, fun c hc => List.mem_takeWhile_imp hc, ?_⟩
  intro c hc
  have := List.head?_dropWhile_not p cs
  rw [Option.mem_def.1 hc] at this
  exact this

namespace Rule

theorem eq_append_of_after? {front cs rest : List Char} (h : after? front cs = some rest) : cs = front ++ rest := by
  rw [after?, Option.ite_none_right_eq_some] at h
  obtain ⟨hfront, hrest⟩ := h
  cases hrest
  exact List.prefix_append_drop (List.isPrefixOf_iff_prefix.1 hfront)

theorem eq_append_of_isPrefixOf {front cs : List Char} (h : front.isPrefixOf cs = true) :
    ∃ rest, cs = front ++ rest := by
  obtain ⟨rest, rfl⟩ := List.isPrefixOf_iff_prefix.1 h
  exact ⟨rest, rfl⟩

theorem eq_append_of_identifierLength? {cs : List Char} {n : Nat} (h : identifierLength? cs = some n) :
    ∃ name rest, cs = name ++ rest ∧ name.length = n ∧ isIdentifier name = true ∧ Stops isWordChar rest := by
  cases cs with
  | nil => cases h
  | cons c cs =>
    rw [identifierLength?, Option.ite_none_right_eq_some] at h
    obtain ⟨hc, hn⟩ := h
    obtain ⟨word, rest, rfl, htake, hword, hrest⟩ := exists_span isWordChar cs
    rw [htake] at hn
    exact ⟨c :: word, rest, rfl, by simpa using hn, by simpa [isIdentifier, hc] using hword, hrest⟩

theorem eq_append_of_rawEnd? {cs : List Char} {n : Nat} (h : rawEnd? cs = some n) :
    ∃ body rest, cs = body ++ ['"', '"', '"'] ++ rest ∧ body.length + 3 = n ∧
      ¬ ['"', '"', '"'] <:+: body ++ ['"', '"'] := by
  induction cs generalizing n with
  | nil => cases h
  | cons c cs ih =>
    unfold rawEnd? at h
    split at h
    · next hfront =>
      cases h
      obtain ⟨rest, hrest⟩ := eq_append_of_isPrefixOf hfront
      exact ⟨[], rest, hrest, rfl, by decide⟩
    · next hfront =>
      obtain ⟨m, hm, rfl⟩ := Option.map_eq_some_iff.1 h
      obtain ⟨body, rest, rfl, rfl, hbody⟩ := ih hm
      refine ⟨c :: body, rest, by simp, by simp, ?_⟩
      -- three quotes at the front would have been found already
      intro hinfix
      rw [List.cons_append, List.infix_cons_iff] at hinfix
      refine hinfix.elim (fun hprefix => hfront ?_) hbody
      rw [List.isPrefixOf_iff_prefix]
      refine hprefix.trans ⟨'"' :: rest, by simp⟩

theorem eq_append_of_stringEnd? {cs : List Char} {n : Nat} (h : stringEnd? cs = some n) :
    ∃ body rest, cs = body ++ '"' :: rest ∧ body.length + 1 = n ∧ Units body := by
  induction cs using stringEnd?.induct generalizing n with
  | case1 => cases h
  | case2 rest =>
    cases h
    exact ⟨[], rest, rfl, rfl, .nil⟩
  | case3 => cases h
  | case4 c cs ih =>
    obtain ⟨m, hm, rfl⟩ := Option.map_eq_some_iff.1 h
    obtain ⟨body, rest, rfl, rfl, hbody⟩ := ih hm
    exact ⟨'\\' :: c :: body, rest, rfl, rfl, .escape hbody⟩
  | case5 c cs hquote hslash ih =>
    rw [stringEnd?.eq_5 c cs hquote hslash] at h
    obtain ⟨m, hm, rfl⟩ := Option.map_eq_some_iff.1 h
    obtain ⟨body, rest, rfl, rfl, hbody⟩ := ih hm
    exact ⟨c :: body, rest, rfl, rfl, .plain hquote hslash hbody⟩

theorem exists_templateVar {cs : List Char} {n : Nat} (h : templateVarLength? cs = some n) :
    ∃ text rest, cs = text ++ rest ∧ text.length = n ∧ Lexeme .templateVar text rest := by
  obtain ⟨inner, hfront, h⟩ := Option.bind_eq_some_iff.1 h
  obtain ⟨m, hm, h⟩ := Option.bind_eq_some_iff.1 h
  rw [Option.ite_none_right_eq_some] at h
  obtain ⟨hclose, hn⟩ := h
  cases hn
  obtain rfl := eq_append_of_after? hfront
  obtain ⟨name, inner, rfl, rfl, hname, -⟩ := eq_append_of_identifierLength? hm
  rw [List.drop_left] at hclose
  obtain ⟨rest, rfl⟩ := eq_append_of_isPrefixOf hclose
  exact ⟨_, rest, by simp, by simp, .templateVar hname⟩

theorem exists_number {cs : List Char} {n : Nat} (h : numberLength? cs = some n) :
    ∃ text rest, cs = text ++ rest ∧ text.length = n ∧ Lexeme .number text rest := by
  obtain ⟨whole, rest, rfl, htake, hwhole, hrest⟩ := exists_span Char.isDigit cs
  simp only [numberLength?, htake, List.drop_left, List.length_eq_zero_iff, Option.ite_none_left_eq_some] at h
  obtain ⟨hne, h⟩ := h
  split at h
  · next cs =>
    obtain ⟨ds, rest', rfl, htake', hds, hrest'⟩ := exists_span Char.isDigit cs
    rw [htake', Option.some.injEq] at h
    by_cases hds0 : ds = []
    · subst hds0
      refine ⟨whole ++ [], '.' :: rest', by simp, by simpa using h, .number hne hwhole (.inl rfl) hrest ?_⟩
      rintro - cs heq
      cases heq
      exact hrest'
    · rw [if_neg (by simpa using hds0)] at h
      have hfraction : IsFraction ('.' :: ds) := .inr ⟨ds, rfl, hds0, hds⟩
      exact ⟨whole ++ '.' :: ds, rest', by simp, by simp; omega, .number hne hwhole hfraction hrest' (by simp)⟩
  · next hpoint =>
    cases h
    refine ⟨whole ++ [], rest, by simp, by simp, .number hne hwhole (.inl rfl) hrest ?_⟩
    exact fun _ cs heq => (hpoint cs heq).elim

theorem exists_lexeme {r : Rule} {cs : List Char} {n : Nat} (h : r.length? cs = some n) :
    ∃ text rest, cs = text ++ rest ∧ text.length = n ∧ Lexeme r text rest := by
  cases r with
  | blanks =>
    simp only [length?, Option.ite_none_left_eq_some, Option.some.injEq] at h
    obtain ⟨hn, rfl⟩ := h
    obtain ⟨text, rest, rfl, htake, hskip, hrest⟩ := exists_span isSkipped cs
    rw [htake] at hn ⊢
    exact ⟨text, rest, rfl, rfl, .blanks (by simpa using hn) hskip hrest⟩
  | comment =>
    obtain ⟨cs', hfront, rfl⟩ := Option.map_eq_some_iff.1 h
    obtain rfl := eq_append_of_after? hfront
    obtain ⟨body, rest, rfl, htake, hbody, hrest⟩ := exists_span (· != '\n') cs'
    rw [htake]
    exact ⟨'/' :: '/' :: body, rest, rfl, by simp; omega, .comment (fun hmem => by simpa using hbody _ hmem) hrest⟩
  | newline =>
    simp only [length?, Option.ite_none_right_eq_some, Option.some.injEq] at h
    obtain ⟨hfront, rfl⟩ := h
    obtain ⟨rest, rfl⟩ := eq_append_of_isPrefixOf hfront
    exact ⟨['\n'], rest, rfl, rfl, .newline⟩
  | rawString =>
    obtain ⟨cs', hfront, hend⟩ := Option.bind_eq_some_iff.1 h
    obtain ⟨m, hm, rfl⟩ := Option.map_eq_some_iff.1 hend
    obtain rfl := eq_append_of_after? hfront
    obtain ⟨body, rest, rfl, rfl, hbody⟩ := eq_append_of_rawEnd? hm
    exact ⟨_, rest, by simp, by simp; omega, .rawString hbody⟩
  | mark m =>
    obtain ⟨cs', hfront, rfl⟩ := Option.map_eq_some_iff.1 h
    obtain rfl := eq_append_of_after? hfront
    exact ⟨_, cs', rfl, String.length_toList, .mark⟩
  | templateVar => exact exists_templateVar h
  | keyword =>
    obtain ⟨k, hk, rfl⟩ := Option.map_eq_some_iff.1 h
    obtain ⟨word, rest, rfl, htake, -, hrest⟩ := exists_span isWordChar cs
    rw [htake] at hk ⊢
    have hword := congrArg String.toList (Keyword.spelling_of_ofSpelling? hk)
    rw [String.toList_ofList] at hword
    subst hword
    exact ⟨_, rest, rfl, rfl, .keyword hrest⟩
  | number => exact exists_number h
  | string =>
    obtain ⟨cs', hfront, hend⟩ := Option.bind_eq_some_iff.1 h
    obtain ⟨m, hm, rfl⟩ := Option.map_eq_some_iff.1 hend
    obtain rfl := eq_append_of_after? hfront
    obtain ⟨body, rest, rfl, rfl, hbody⟩ := eq_append_of_stringEnd? hm
    exact ⟨_, rest, by simp, by simp; omega, .string hbody⟩
  | identifier =>
    obtain ⟨name, rest, rfl, rfl, hname, hrest⟩ := eq_append_of_identifierLength? h
    exact ⟨name, rest, rfl, rfl, .identifier hname hrest⟩

theorem mem_table (r : Rule) : r ∈ table := by
  cases r with
  | mark m => cases m <;> decide
  | _ => decide

/-- The first rule that takes something, when `len` says how much each one takes. -/
def firstOf? (len : Rule → Option Nat) : Option (Rule × Nat) :=
  table.findSome? fun r => (len r).bind fun n => if 0 < n then some (r, n) else none

theorem firstOf?_eq_some {len : Rule → Option Nat} {r : Rule} {n : Nat} (h : firstOf? len = some (r, n)) :
    len r = some n ∧ 0 < n ∧ ∀ r', table.idxOf r' < table.idxOf r → ∀ m, len r' = some m → m = 0 := by
  obtain ⟨front, r₀, back, htable, htakes, hfront⟩ := List.findSome?_eq_some_iff.1 h
  simp only [Option.bind_eq_some_iff, Option.ite_none_right_eq_some, Option.some.injEq, Prod.mk.injEq] at htakes
  obtain ⟨m, hm, hpos, rfl, rfl⟩ := htakes
  refine ⟨hm, hpos, fun r' hr' k hk => ?_⟩
  have hmem : r' ∈ front := by
    by_contra hnot
    rw [htable, List.idxOf_append, List.idxOf_append, if_neg hnot] at hr'
    split at hr'
    · next hr₀ =>
      have := List.idxOf_lt_length_of_mem hr₀
      omega
    · simp only [List.idxOf_cons_self, Nat.zero_add] at hr'
      omega
  have := hfront r' hmem
  simp only [hk, Option.bind_some, ite_eq_right_iff, reduceCtorEq, imp_false, Nat.not_lt, Nat.le_zero_eq] at this
  exact this

theorem firstOf?_eq_none {len : Rule → Option Nat} (h : firstOf? len = none) (r : Rule) {n : Nat} (hn : len r = some n) :
    n = 0 := by
  have := List.findSome?_eq_none_iff.1 h r (mem_table r)
  simp only [hn, Option.bind_some, ite_eq_right_iff, reduceCtorEq, imp_false, Nat.not_lt, Nat.le_zero_eq] at this
  exact this

/-- The rule that decides takes something, and no rule before it does. -/
theorem first?_eq_some {cs : List Char} {r : Rule} {n : Nat} (h : first? cs = some (r, n)) :
    r.length? cs = some n ∧ 0 < n ∧ ∀ r', table.idxOf r' < table.idxOf r → ∀ m, r'.length? cs = some m → m = 0 :=
  firstOf?_eq_some h

theorem length?_of_first?_eq_none {cs : List Char} (h : first? cs = none) (r : Rule) {n : Nat}
    (hn : r.length? cs = some n) : n = 0 :=
  firstOf?_eq_none h r hn

/-- The rule that decides takes a lexeme that is not empty. -/
theorem lexeme_of_first? {cs : List Char} {r : Rule} {n : Nat} (h : first? cs = some (r, n)) :
    ∃ text rest, cs = text ++ rest ∧ text.length = n ∧ text ≠ [] ∧ Lexeme r text rest := by
  obtain ⟨hn, hpos, -⟩ := first?_eq_some h
  obtain ⟨text, rest, hcs, hlen, hlexeme⟩ := exists_lexeme hn
  exact ⟨text, rest, hcs, hlen, by rintro rfl; simp at hlen; omega, hlexeme⟩

end Rule

/-- A character after the text is escaped: the backslashes right in front of it are odd in number. -/
def EndsEscaping (cs : List Char) : Prop := (cs.reverse.takeWhile (· == '\\')).length % 2 = 1

theorem endsEscaping_cons {c : Char} {cs : List Char} (hc : c ≠ '\\') (h : EndsEscaping cs) :
    EndsEscaping (c :: cs) := by
  unfold EndsEscaping at h ⊢
  rw [List.reverse_cons, List.takeWhile_append]
  split
  · next hall =>
    rw [hall] at h
    simpa [hc] using h
  · exact h

theorem endsEscaping_escape {c : Char} {cs : List Char} (h : EndsEscaping cs) : EndsEscaping ('\\' :: c :: cs) := by
  unfold EndsEscaping at h ⊢
  rw [List.reverse_cons, List.reverse_cons, List.append_assoc, List.takeWhile_append]
  split
  · next hall =>
    -- the backslash before `c` counts only along with `c`
    rw [hall] at h
    by_cases hc : c = '\\' <;> simpa [hc] using h
  · exact h

theorem endsEscaping_of_stringEnd?_eq_none {cs body more : List Char} (h : Rule.stringEnd? cs = none)
    (hcs : cs = body ++ '"' :: more) : EndsEscaping body := by
  induction cs using Rule.stringEnd?.induct generalizing body with
  | case1 => simp at hcs
  | case2 => cases h
  | case3 => cases body <;> simp at hcs
  | case4 c cs ih =>
    have h' : Rule.stringEnd? cs = none := by simpa [Rule.stringEnd?] using h
    match body with
    | [] => simp at hcs
    | [b] =>
      obtain rfl : '\\' = b := by simp at hcs; exact hcs.1
      rfl
    | b :: d :: body =>
      simp only [List.cons_append, List.cons.injEq] at hcs
      obtain ⟨rfl, rfl, hcs⟩ := hcs
      exact endsEscaping_escape (ih h' hcs)
  | case5 c cs hquote hslash ih =>
    have h' : Rule.stringEnd? cs = none := by simpa [Rule.stringEnd?.eq_5 c cs hquote hslash] using h
    cases body with
    | nil => exact (hquote (by simp at hcs; exact hcs.1)).elim
    | cons b body =>
      simp only [List.cons_append, List.cons.injEq] at hcs
      obtain ⟨rfl, hcs⟩ := hcs
      exact endsEscaping_cons hslash (ih h' hcs)

/-- The ways in which a text can start with no lexeme. -/
inductive Stuck : List Char → Prop
  | slash {cs} : cs.head? ≠ some '/' → Stuck ('/' :: cs)
  | angle {cs} : cs.head? ≠ some '>' → Stuck ('>' :: cs)
  | quote {cs} : (∀ body more, cs = body ++ '"' :: more → EndsEscaping body) → Stuck ('"' :: cs)
  | foreign {c cs} : isWordChar c = false → Rule.isSkipped c = false →
      c ∉ ['\n', '/', '>', '"', '=', ':', ',', '@', '\x7b', '\x7d', '(', ')', '[', ']'] → Stuck (c :: cs)

theorem first?_ne_none_of_isWordChar {c : Char} {cs : List Char} (hc : isWordChar c = true) :
    Rule.first? (c :: cs) ≠ none := by
  intro h
  have hnone := Rule.length?_of_first?_eq_none h
  by_cases hstart : isWordStart c = true
  · cases hnone .identifier (by simp only [Rule.length?, identifierLength?, if_pos hstart]; rfl)
  · have hdigit : c.isDigit = true := by simp_all [isWordChar, isWordStart, Char.isAlphanum]
    obtain ⟨n, hn, hne⟩ : ∃ n, Rule.number.length? (c :: cs) = some n ∧ n ≠ 0 := by
      simp only [Rule.length?, Rule.numberLength?, List.takeWhile_cons_of_pos hdigit, List.length_cons,
        Nat.add_one_ne_zero, if_false]
      split
      · exact ⟨_, rfl, by split <;> omega⟩
      · exact ⟨_, rfl, by omega⟩
    exact hne (hnone .number hn)

theorem stuck_of_first?_eq_none {c : Char} {cs : List Char} (h : Rule.first? (c :: cs) = none) : Stuck (c :: cs) := by
  have hnone := Rule.length?_of_first?_eq_none h
  have hmark : ∀ m : Mark, m.spelling.toList = [c] → Stuck (c :: cs) := by
    intro m hm
    have hlength : (Rule.mark m).length? (c :: cs) = some 1 := by
      have hone : m.spelling.length = 1 := by rw [← String.length_toList, hm]; rfl
      simp [Rule.length?, Rule.after?, hm, hone]
    cases hnone (.mark m) hlength
  by_cases hword : isWordChar c = true
  · exact absurd h (first?_ne_none_of_isWordChar hword)
  by_cases hskip : Rule.isSkipped c = true
  · cases hnone .blanks (by simp [Rule.length?, List.takeWhile_cons_of_pos hskip]; rfl)
  by_cases hother : c ∈ ['\n', '/', '>', '"', '=', ':', ',', '@', '\x7b', '\x7d', '(', ')', '[', ']']
  · simp only [List.mem_cons, List.not_mem_nil, or_false] at hother
    rcases hother with rfl | rfl | rfl | rfl | rfl | rfl | rfl | rfl | rfl | rfl | rfl | rfl | rfl | rfl
    · cases hnone .newline (n := 1) (by simp [Rule.length?])
    · refine .slash fun hslash => ?_
      obtain ⟨cs, rfl⟩ := List.head?_eq_some_iff.1 hslash
      cases hnone .comment (by simp [Rule.length?, Rule.after?, Nat.add_comm 2]; rfl)
    · refine .angle fun hangle => ?_
      obtain ⟨cs, rfl⟩ := List.head?_eq_some_iff.1 hangle
      cases hnone (.mark .pipe) (n := 2) (by simp [Rule.length?, Rule.after?, Mark.spelling]; rfl)
    · refine .quote fun body more hcs => endsEscaping_of_stringEnd?_eq_none ?_ hcs
      cases hend : Rule.stringEnd? cs with
      | none => rfl
      | some n => cases hnone .string (n := n + 1) (by simp [Rule.length?, Rule.after?, hend, Nat.add_comm])
    · exact hmark .assign rfl
    · exact hmark .colon rfl
    · exact hmark .comma rfl
    · exact hmark .bind rfl
    · exact hmark .lbrace rfl
    · exact hmark .rbrace rfl
    · exact hmark .lparen rfl
    · exact hmark .rparen rfl
    · exact hmark .lbracket rfl
    · exact hmark .rbracket rfl
  · exact .foreign (by simpa using hword) (by simpa using hskip) hother

end ChainCompiler
