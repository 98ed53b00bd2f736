import ChainCompiler.Proofs.Lexical
import ChainCompiler.Proofs.Quoting

/-! Which rule decides. A rule takes every lexeme of its shape, and the first character of a text leaves few rules to
choose from, so a lexeme is the one that is scanned as soon as the rules that could start with its first character and
come earlier take nothing. -/

namespace ChainCompiler

open Text

theorem identifierLength?_append {name rest : List Char} (hname : isIdentifier name = true)
    (hrest : Stops isWordChar rest) : identifierLength? (name ++ rest) = some name.length := by
  rcases name with _ | ⟨c, cs⟩
  · cases hname
  simp only [isIdentifier, Bool.and_eq_true, List.all_eq_true] at hname
  rw [List.cons_append, identifierLength?, if_pos hname.1, takeWhile_append_of_stops hname.2 hrest, List.length_cons]

theorem isIdentifier_spelling (k : Keyword) : isIdentifier k.spelling.toList = true := by
  cases k <;> decide

namespace Rule

theorem after?_append (front rest : List Char) : after? front (front ++ rest) = some rest := by
  rw [after?, if_pos (List.isPrefixOf_iff_prefix.2 (List.prefix_append _ _)), List.drop_left]

theorem rawEnd?_append {body : List Char} (h : ¬ ['"', '"', '"'] <:+: body ++ ['"', '"']) (rest : List Char) :
    rawEnd? (body ++ ['"', '"', '"'] ++ rest) = some (body.length + 3) := by
  induction body with
  | nil => rfl
  | cons c cs ih =>
    rw [List.cons_append, List.infix_cons_iff, not_or] at h
    have hfront : ¬ ['"', '"', '"'].isPrefixOf (c :: (cs ++ ['"', '"', '"'] ++ rest)) = true := by
      rw [List.isPrefixOf_iff_prefix]
      intro hquotes
      -- the three quotes would lie within the contents and the first two of those that end them
      apply h.1
      have hlen : ['"', '"', '"'].length ≤ (c :: (cs ++ ['"', '"'])).length := by simp
      refine List.prefix_of_prefix_length_le hquotes ⟨'"' :: rest, ?_⟩ hlen
      simp
    rw [List.cons_append, List.cons_append, rawEnd?, if_neg hfront, ih h.2]
    rfl

theorem numberLength?_append {whole fraction rest : List Char} (hne : whole ≠ [])
    (hwhole : ∀ d ∈ whole, d.isDigit = true) (hfraction : IsFraction fraction) (hrest : Stops Char.isDigit rest)
    (hpoint : fraction = [] → ∀ cs, rest = '.' :: cs → Stops Char.isDigit cs) :
    numberLength? (whole ++ fraction ++ rest) = some (whole ++ fraction).length := by
  have hnext : Stops Char.isDigit (fraction ++ rest) := by
    rcases hfraction with rfl | ⟨ds, rfl, -, -⟩
    · exact hrest
    · intro c hc
      obtain rfl : '.' = c := by simpa using hc
      decide
  unfold numberLength?
  rw [List.append_assoc, takeWhile_append_of_stops hwhole hnext]
  dsimp only
  rw [if_neg (by simpa using hne), List.drop_left]
  rcases hfraction with rfl | ⟨ds, rfl, hds, hdigits⟩
  · rw [List.nil_append, List.append_nil]
    split
    · next cs =>
      have hstop : ([] ++ cs).takeWhile Char.isDigit = [] := takeWhile_append_of_stops (by simp) (hpoint rfl cs rfl)
      rw [List.nil_append] at hstop
      simp [hstop]
    · rfl
  · rw [List.cons_append]
    change some (if (List.takeWhile _ _).length = 0 then _ else _) = _
    rw [takeWhile_append_of_stops hdigits hrest, if_neg (by simpa using hds)]
    simp
    omega

/-- A lexeme of the rule is what the rule takes. -/
theorem length?_of_lexeme {r : Rule} {text rest : List Char} (h : Lexeme r text rest) :
    r.length? (text ++ rest) = some text.length := by
  cases h with
  | blanks hne hskip hrest =>
    simp only [length?, takeWhile_append_of_stops hskip hrest]
    rw [if_neg (by simpa using hne)]
  | @comment body _ hbody hrest =>
    have hchars : ∀ c ∈ body, (c != '\n') = true := by
      intro c hc
      rw [bne_iff_ne]
      rintro rfl
      exact hbody hc
    rw [length?, show '/' :: '/' :: body ++ rest = ['/', '/'] ++ (body ++ rest) from rfl, after?_append,
      Option.map_some, takeWhile_append_of_stops hchars hrest]
    simp
    omega
  | newline => rfl
  | rawString hbody =>
    simp only [length?, List.append_assoc, after?_append, Option.bind_some]
    rw [← List.append_assoc, rawEnd?_append hbody]
    simp
    omega
  | mark => simp only [length?, after?_append, Option.map_some, String.length_toList]
  | templateVar hname =>
    have hclose : Stops isWordChar (['\x7d', '\x7d'] ++ rest) := by simp [Stops]; decide
    simp only [length?, templateVarLength?, List.append_assoc, after?_append, Option.bind_eq_bind, Option.bind_some,
      identifierLength?_append hname hclose, List.drop_left]
    rw [if_pos (List.isPrefixOf_iff_prefix.2 (List.prefix_append _ _))]
    simp
  | @keyword k _ hrest =>
    have hword := isWordChar_of_isIdentifier (isIdentifier_spelling k)
    simp only [length?, takeWhile_append_of_stops hword hrest, String.ofList_toList, Keyword.ofSpelling?_spelling,
      Option.map_some]
  | number hne hwhole hfraction hrest hpoint => exact numberLength?_append hne hwhole hfraction hrest hpoint
  | @string body _ hbody =>
    have hend := stringEnd?_of_units hbody rest
    rw [length?, show '"' :: body ++ ['"'] ++ rest = ['"'] ++ (body ++ '"' :: rest) by simp, after?_append,
      Option.bind_some, hend]
    simp
    omega
  | identifier hname hrest => exact identifierLength?_append hname hrest

def starts : Rule → Char → Bool
  | .blanks, c => isSkipped c
  | .comment, c => c == '/'
  | .newline, c => c == '\n'
  | .rawString, c => c == '"'
  | .mark m, c => m.spelling.toList.head? == some c
  | .templateVar, c => c == '\x7b'
  | .keyword, c => isWordStart c
  | .number, c => c.isDigit
  | .string, c => c == '"'
  | .identifier, c => isWordStart c

theorem starts_of_lexeme {r : Rule} {c : Char} {text rest : List Char} (h : Lexeme r (c :: text) rest) :
    r.starts c = true := by
  generalize hcs : c :: text = cs at h
  cases h with
  | blanks _ hskip _ => exact hskip c (by simp [← hcs])
  | mark => simp [starts, ← hcs]
  | @keyword k _ _ =>
    have hk := isIdentifier_spelling k
    rw [← hcs, isIdentifier, Bool.and_eq_true] at hk
    exact hk.1
  | number hne hwhole =>
    obtain ⟨d, ds, rfl⟩ := List.exists_cons_of_ne_nil hne
    obtain ⟨rfl, -⟩ := List.cons.inj hcs
    exact hwhole c (by simp)
  | identifier hname =>
    rw [← hcs, isIdentifier, Bool.and_eq_true] at hname
    exact hname.1
  | _ => simp_all [starts]

theorem starts_of_length? {r : Rule} {c : Char} {cs : List Char} {n : Nat} (h : r.length? (c :: cs) = some n)
    (hn : 0 < n) : r.starts c = true := by
  obtain ⟨text, rest, hcs, rfl, hlexeme⟩ := exists_lexeme h
  obtain ⟨d, text, rfl⟩ := List.exists_cons_of_ne_nil (List.length_pos_iff.1 hn)
  obtain ⟨rfl, -⟩ := List.cons.inj hcs
  exact starts_of_lexeme hlexeme

theorem eq_of_idxOf_eq {r r' : Rule} (h : table.idxOf r = table.idxOf r') : r = r' :=
  (List.idxOf_inj (mem_table r)).1 h

/-- A lexeme is scanned when every earlier rule that could start with its first character takes nothing. -/
theorem first?_of_lexeme {r : Rule} {c : Char} {text rest : List Char} (h : Lexeme r (c :: text) rest)
    (hbefore : ∀ r', r'.starts c = true → table.idxOf r' < table.idxOf r → r'.length? (c :: text ++ rest) = none) :
    first? (c :: text ++ rest) = some (r, (c :: text).length) := by
  have hlength := length?_of_lexeme h
  cases hfirst : first? (c :: text ++ rest) with
  | none => cases length?_of_first?_eq_none hfirst r hlength
  | some x =>
    obtain ⟨r₀, n⟩ := x
    obtain ⟨hn, hpos, hmin⟩ := first?_eq_some hfirst
    rcases Nat.lt_trichotomy (table.idxOf r) (table.idxOf r₀) with hlt | heq | hgt
    · cases hmin r hlt _ hlength
    · obtain rfl := eq_of_idxOf_eq heq
      rw [hn] at hlength
      cases hlength
      rfl
    · rw [hbefore r₀ (starts_of_length? hn hpos) hgt] at hn
      cases hn

end Rule

end ChainCompiler
