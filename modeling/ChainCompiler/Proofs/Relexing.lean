import ChainCompiler.Proofs.Adjacency
import ChainCompiler.Proofs.Scanning
import ChainCompiler.Proofs.Shift.Basic

/-! Text that is put after a line break. The lexemes in front of the break stay as they are, unless a string is directly
followed by another one: then three quotes may turn out to open a raw string. Text after the break gives the tokens it
gives alone, further down. -/

namespace ChainCompiler

open Text

theorem takeWhile_append_newline {p : Char → Bool} (hp : p '\n' = false) (cs ys : List Char) :
    (cs ++ '\n' :: ys).takeWhile p = cs.takeWhile p := by
  rw [List.takeWhile_append]
  split
  · next hall =>
    rw [List.takeWhile_cons_of_neg (by simp [hp]), List.append_nil]
    exact ((List.takeWhile_prefix p).eq_of_length hall).symm
  · rfl

theorem isPrefixOf_append_newline {front : List Char} (hfront : '\n' ∉ front) (cs ys : List Char) :
    front.isPrefixOf (cs ++ '\n' :: ys) = front.isPrefixOf cs := by
  induction front generalizing cs with
  | nil => simp
  | cons f front ih =>
    simp only [List.mem_cons, not_or] at hfront
    cases cs with
    | nil => simp [List.isPrefixOf, Ne.symm hfront.1]
    | cons c cs => simp [List.isPrefixOf, ih hfront.2]

namespace Rule

theorem after?_append_newline {front : List Char} (hfront : '\n' ∉ front) (cs ys : List Char) :
    after? front (cs ++ '\n' :: ys) = (after? front cs).map (· ++ '\n' :: ys) := by
  simp only [after?, isPrefixOf_append_newline hfront]
  split
  · next h =>
    have hlen := (List.isPrefixOf_iff_prefix.1 h).length_le
    rw [List.drop_append_of_le_length hlen, Option.map_some]
  · rfl

theorem identifierLength?_append_newline (cs ys : List Char) :
    identifierLength? (cs ++ '\n' :: ys) = identifierLength? cs := by
  cases cs with
  | nil => rfl
  | cons c cs =>
    rw [List.cons_append, identifierLength?, identifierLength?, takeWhile_append_newline (by decide)]

theorem rawEnd?_append_newline {cs : List Char} {n : Nat} (ys : List Char) (h : rawEnd? cs = some n) :
    rawEnd? (cs ++ '\n' :: ys) = some n := by
  induction cs generalizing n with
  | nil => cases h
  | cons c cs ih =>
    rw [rawEnd?] at h
    rw [List.cons_append, rawEnd?, ← List.cons_append, isPrefixOf_append_newline (by decide)]
    split at h
    · next hquotes => rw [if_pos hquotes, h]
    · next hquotes =>
      obtain ⟨m, hm, rfl⟩ := Option.map_eq_some_iff.1 h
      rw [if_neg hquotes, ih hm, Option.map_some]

theorem stringEnd?_append {cs : List Char} {n : Nat} (zs : List Char) (h : stringEnd? cs = some n) :
    stringEnd? (cs ++ zs) = some n := by
  induction cs using stringEnd?.induct generalizing n with
  | case1 => cases h
  | case2 => exact h
  | case3 => cases h
  | case4 c cs ih =>
    obtain ⟨m, hm, rfl⟩ := Option.map_eq_some_iff.1 h
    simp [stringEnd?, ih hm]
  | case5 c cs hquote hslash ih =>
    rw [stringEnd?.eq_5 c cs hquote hslash] at h
    obtain ⟨m, hm, rfl⟩ := Option.map_eq_some_iff.1 h
    rw [List.cons_append, stringEnd?.eq_5 c _ hquote hslash, ih hm, Option.map_some]

theorem templateVarLength?_append_newline (cs ys : List Char) :
    templateVarLength? (cs ++ '\n' :: ys) = templateVarLength? cs := by
  have hclose : '\n' ∉ ['\x7d', '\x7d'] := by decide
  simp only [templateVarLength?, after?_append_newline (show '\n' ∉ ['\x7b', '\x7b'] by decide)]
  cases after? ['\x7b', '\x7b'] cs with
  | none => rfl
  | some inner =>
    simp only [Option.map_some, Option.bind_eq_bind, Option.bind_some, identifierLength?_append_newline]
    cases hn : identifierLength? inner with
    | none => rfl
    | some n =>
      obtain ⟨name, rest, rfl, rfl, -, -⟩ := eq_append_of_identifierLength? hn
      simp only [Option.bind_some, List.append_assoc, List.drop_left, isPrefixOf_append_newline hclose]

theorem numberLength?_append_newline (cs ys : List Char) : numberLength? (cs ++ '\n' :: ys) = numberLength? cs := by
  have hdigits := takeWhile_append_newline (show Char.isDigit '\n' = false by decide)
  obtain ⟨whole, rest, rfl, htake, -, -⟩ := exists_span Char.isDigit cs
  have hdrop : (whole ++ rest ++ '\n' :: ys).drop whole.length = rest ++ '\n' :: ys := by
    rw [List.append_assoc, List.drop_left]
  simp only [numberLength?, hdigits, htake, hdrop, List.drop_left]
  split
  · rfl
  · cases rest with
    | nil => rfl
    | cons c rest =>
      by_cases hc : c = '.'
      · subst hc
        simp only [List.cons_append, hdigits]
      · simp [hc]

/-- No rule but those for strings looks beyond the end of a line. -/
theorem length?_append_newline {r : Rule} (hraw : r ≠ .rawString) (hstring : r ≠ .string) {cs : List Char}
    (hne : cs ≠ []) (ys : List Char) : r.length? (cs ++ '\n' :: ys) = r.length? cs := by
  cases r with
  | blanks => simp only [length?, takeWhile_append_newline (show isSkipped '\n' = false by decide)]
  | comment =>
    simp only [length?, after?_append_newline (show '\n' ∉ ['/', '/'] by decide), Option.map_map]
    congr 1
    funext rest
    simp only [Function.comp, takeWhile_append_newline (p := (· != '\n')) (by decide)]
  | newline =>
    obtain ⟨c, cs, rfl⟩ := List.exists_cons_of_ne_nil hne
    simp [length?, List.isPrefixOf]
  | mark m =>
    have hm : '\n' ∉ m.spelling.toList := by cases m <;> decide
    simp only [length?, after?_append_newline hm, Option.map_map]
    rfl
  | templateVar => exact templateVarLength?_append_newline cs ys
  | keyword => simp only [length?, takeWhile_append_newline (show isWordChar '\n' = false by decide)]
  | number => exact numberLength?_append_newline cs ys
  | identifier => exact identifierLength?_append_newline cs ys
  | rawString => exact absurd rfl hraw
  | string => exact absurd rfl hstring

end Rule

/-- Only strings start with a quote. -/
theorem Lexeme.string_of_quote {r : Rule} {text rest : List Char} (h : Lexeme r ('"' :: text) rest) :
    r = .rawString ∨ r = .string := by
  generalize hcs : '"' :: text = cs at h
  cases h with
  | rawString => exact .inl rfl
  | string => exact .inr rfl
  | @blanks text' _ _ hskip _ => exact absurd (hskip '"' (by simp [← hcs])) (by decide)
  | comment => simp at hcs
  | newline => simp at hcs
  | @mark m => cases m <;> simp [Mark.spelling] at hcs
  | templateVar => simp at hcs
  | @keyword k => cases k <;> simp [Keyword.spelling] at hcs
  | @number whole _ _ hne hwhole =>
    obtain ⟨d, ds, rfl⟩ := List.exists_cons_of_ne_nil hne
    obtain ⟨rfl, -⟩ : '"' = d ∧ _ := by simpa using hcs
    exact absurd (hwhole '"' (by simp)) (by decide)
  | identifier hname =>
    rw [← hcs] at hname
    exact absurd hname (by simp [isIdentifier, isWordStart])

namespace Rule

theorem rawString_append_newline {cs : List Char} (ys : List Char)
    (h : ∀ rest, cs = ['"', '"', '"'] ++ rest → rawEnd? rest ≠ none) :
    rawString.length? (cs ++ '\n' :: ys) = rawString.length? cs := by
  simp only [length?, after?_append_newline (show '\n' ∉ ['"', '"', '"'] by decide)]
  cases hafter : after? ['"', '"', '"'] cs with
  | none => rfl
  | some rest =>
    obtain ⟨n, hn⟩ := Option.ne_none_iff_exists'.1 (h rest (eq_append_of_after? hafter))
    simp [hn, rawEnd?_append_newline ys hn]

theorem string_append_newline {cs : List Char} (ys : List Char)
    (h : ∀ rest, cs = '"' :: rest → stringEnd? rest ≠ none) :
    string.length? (cs ++ '\n' :: ys) = string.length? cs := by
  simp only [length?, after?_append_newline (show '\n' ∉ ['"'] by decide)]
  cases hafter : after? ['"'] cs with
  | none => rfl
  | some rest =>
    obtain ⟨n, hn⟩ := Option.ne_none_iff_exists'.1 (h rest (eq_append_of_after? hafter))
    simp [hn, stringEnd?_append _ hn]

/-- What decides at the front of a line still does when lines are added, unless another string follows a string. -/
theorem first?_append_newline {r : Rule} {text rest : List Char} (h : first? (text ++ rest) = some (r, text.length))
    (hlexeme : Lexeme r text rest) (hne : text ≠ []) (hapart : r = .string → rest.head? ≠ some '"') (ys : List Char) :
    first? (text ++ rest ++ '\n' :: ys) = some (r, text.length) := by
  have hlength := (first?_eq_some h).1
  -- a quote at the front belongs to a string that is closed before the end of the line
  have hquote : ∀ more, text ++ rest = '"' :: more → r = .rawString ∨ r = .string := by
    intro more hmore
    obtain ⟨c, text, rfl⟩ := List.exists_cons_of_ne_nil hne
    obtain ⟨rfl, -⟩ : c = '"' ∧ _ := by simpa using hmore
    exact hlexeme.string_of_quote
  have hraw : ∀ more, text ++ rest = ['"', '"', '"'] ++ more → rawEnd? more ≠ none := by
    intro more hmore hnone
    rcases hquote _ hmore with rfl | rfl
    · simp [length?, hmore, after?, hnone] at hlength
    · have htwo : text.length = 2 := by
        simpa [length?, hmore, after?, stringEnd?, eq_comm] using hlength
      have hrest := congrArg (List.drop text.length) hmore
      rw [List.drop_left, htwo] at hrest
      exact hapart rfl (by rw [hrest]; rfl)
  have hstring : ∀ more, text ++ rest = '"' :: more → stringEnd? more ≠ none := by
    intro more hmore hnone
    rcases hquote _ hmore with rfl | rfl
    · cases hlexeme
      obtain rfl : _ = more := (List.cons.inj hmore).2
      cases hnone
    · simp [length?, hmore, after?, hnone] at hlength
  have hall : ∀ r' : Rule, r'.length? (text ++ rest ++ '\n' :: ys) = r'.length? (text ++ rest) := by
    intro r'
    by_cases h₁ : r' = .rawString
    · rw [h₁, rawString_append_newline ys hraw]
    by_cases h₂ : r' = .string
    · rw [h₂, string_append_newline ys hstring]
    exact length?_append_newline h₁ h₂ (by simp [hne]) ys
  rw [← h]
  simp only [first?, hall]

theorem first?_newline (ys : List Char) : first? ('\n' :: ys) = some (.newline, 1) := by
  have hblanks : blanks.length? ('\n' :: ys) = none := by
    simp [length?, List.takeWhile_cons_of_neg (show ¬ isSkipped '\n' = true by decide)]
  have hcomment : comment.length? ('\n' :: ys) = none := by simp [length?, after?]
  have hnewline : newline.length? ('\n' :: ys) = some 1 := by simp [length?]
  simp [first?, table, hblanks, hcomment, hnewline]

end Rule

theorem Scanned.string_of_quote {pos : Position} {cs : List Char} {ts : List Token}
    (h : Scanned pos ('"' :: cs) (.ok ts)) :
    ∃ t us, ts = t :: us ∧ t.kind = .string := by
  generalize hcs : '"' :: cs = cs' at h
  generalize hresult : Except.ok ts = result at h
  cases h with
  | done => cases hcs
  | stuck => cases hresult
  | @lexeme _ r text rest result hfirst hne hlexeme _ =>
    cases result with
    | error e => cases hresult
    | ok us =>
      cases hresult
      obtain ⟨c, text, rfl⟩ := List.exists_cons_of_ne_nil hne
      obtain ⟨rfl, -⟩ : '"' = c ∧ _ := by simpa using hcs
      rcases hlexeme.string_of_quote with rfl | rfl <;> exact ⟨_, _, rfl, rfl⟩

namespace Token

open Grammar (Apart)

/-- A text whose strings are apart gives its own tokens, whatever lines come after it. -/
theorem scan_append_newline {pos : Position} {cs : List Char} {init : List Token} {eof : Token}
    (h : Scanned pos cs (.ok (init ++ [eof]))) (hapart : Apart (init ++ [eof])) (ys : List Char) :
    scan pos 0 (cs ++ '\n' :: ys) =
      (scan ((pos.after cs).next '\n') 0 ys).map (init ++ ⟨.newline, "\n", pos.after cs⟩ :: ·) := by
  generalize hresult : Except.ok (init ++ [eof]) = result at h
  induction h generalizing init with
  | @done pos =>
    obtain ⟨rfl, -⟩ : init = [] ∧ _ := by
      have := Except.ok.inj hresult
      exact List.append_inj' this rfl
    have hne : ['\n'] ≠ [] := by simp
    exact scan_lexeme hne (Rule.first?_newline ys)
  | stuck => cases hresult
  | @lexeme pos r text rest result hfirst hne hlexeme hrest ih =>
    cases result with
    | error e => cases hresult
    | ok us =>
      obtain ⟨init', eof', rfl, -⟩ := endsOnce_of_scanned hrest
      have hus : init ++ [eof] = r.emit text pos ++ init' ++ [eof'] := by simpa using Except.ok.inj hresult
      obtain ⟨rfl, heof⟩ := List.append_inj' hus rfl
      cases heof
      rw [List.append_assoc] at hapart
      have hquote : r = .string → rest.head? ≠ some '"' := by
        rintro rfl hhead
        obtain ⟨more, rfl⟩ := List.head?_eq_some_iff.1 hhead
        obtain ⟨t, us, hts, ht⟩ := hrest.string_of_quote
        rw [hts] at hapart
        exact (List.isChain_cons_cons.1 hapart).1 rfl ht
      have hfirst' := Rule.first?_append_newline hfirst hlexeme hne hquote ys
      rw [List.append_assoc] at hfirst' ⊢
      rw [scan_lexeme hne hfirst', ih (List.isChain_append.1 hapart).2.1 rfl, Position.after_append]
      cases scan (((pos.after text).after rest).next '\n') 0 ys with
      | error e => rfl
      | ok ys => simp [Except.map]

end Token

end ChainCompiler
