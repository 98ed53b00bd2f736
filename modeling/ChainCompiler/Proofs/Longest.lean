import ChainCompiler.Proofs.Rejoining

/-! The first rule is the longest. Of all rules that take something at the front of a text, the first one in the table
takes the most, so trying them in order gives the same tokens as a search for the longest lexeme, with ties going to
the earlier rule. What counts as a word character after a keyword is left open beyond ASCII: a keyword in front of
another word character is a name instead, but then the text has no tokens. -/

namespace ChainCompiler

open Text

/-- The word characters of some alphabet. Of the ASCII characters they are the letters, the digits and the underscore. -/
structure WordClass where
  has : Char → Bool
  ascii : ∀ c : Char, c.toNat < 128 → has c = isWordChar c

namespace WordClass

def names : WordClass := ⟨isWordChar, fun _ _ => rfl⟩

theorem toNat_lt_of_isWordChar {c : Char} (h : isWordChar c = true) : c.toNat < 128 := by
  have hle : ∀ d : Char, d.toNat < 128 → c.val ≤ d.val → c.toNat < 128 := fun d hd hcd =>
    Nat.lt_of_le_of_lt (UInt32.le_iff_toNat_le.1 hcd) hd
  rcases Bool.or_eq_true_iff.1 h with h | h
  · rcases Bool.or_eq_true_iff.1 h with h | h
    · rcases Bool.or_eq_true_iff.1 h with h | h
      · exact hle 'Z' (by decide) (of_decide_eq_true h).2
      · exact hle 'z' (by decide) (of_decide_eq_true (Bool.and_eq_true_iff.1 h).2)
    · exact hle '9' (by decide) (of_decide_eq_true (Bool.and_eq_true_iff.1 h).2)
  · rw [beq_iff_eq.1 h]
    decide

theorem has_of_isWordChar (W : WordClass) {c : Char} (h : isWordChar c = true) : W.has c = true := by
  rw [W.ascii c (toNat_lt_of_isWordChar h), h]

theorem stops_isWordChar (W : WordClass) {rest : List Char} (h : Stops W.has rest) : Stops isWordChar rest := by
  intro c hc
  rw [Bool.eq_false_iff]
  intro hword
  have := h c hc
  rw [W.has_of_isWordChar hword] at this
  cases this

end WordClass

namespace Rule

/-- The keyword stands at the front of the text and no word character comes after it. -/
def standsAt (W : WordClass) (cs : List Char) (k : Keyword) : Bool :=
  (after? k.spelling.toList cs).any fun rest => !rest.head?.any W.has

def keywordLength? (W : WordClass) (cs : List Char) : Option Nat :=
  (Keyword.all.find? (standsAt W cs)).map fun k => k.spelling.length

/-- How much of the front of a text the rule takes, when keywords end where words of the class do. -/
def lengthBy? (W : WordClass) (cs : List Char) : Rule → Option Nat
  | .keyword => keywordLength? W cs
  | r => r.length? cs

def firstBy? (W : WordClass) (cs : List Char) : Option (Rule × Nat) := firstOf? (lengthBy? W cs)

/-- The rule takes something, no rule takes more, and none before it takes as much. -/
structure IsLongest (W : WordClass) (cs : List Char) (r : Rule) (n : Nat) : Prop where
  takes : lengthBy? W cs r = some n
  pos : 0 < n
  longest : ∀ r' m, lengthBy? W cs r' = some m → m ≤ n
  earliest : ∀ r', lengthBy? W cs r' = some n → table.idxOf r ≤ table.idxOf r'

variable {W : WordClass} {cs : List Char} {r : Rule} {n : Nat}

theorem stops_iff {p : Char → Bool} {rest : List Char} : Stops p rest ↔ (!rest.head?.any p) = true := by
  cases rest <;> simp [Stops]

theorem standsAt_iff {k : Keyword} :
    standsAt W cs k = true ↔ ∃ rest, cs = k.spelling.toList ++ rest ∧ Stops W.has rest := by
  rw [standsAt, Option.any_eq_true]
  constructor
  · rintro ⟨rest, hafter, hrest⟩
    exact ⟨rest, eq_append_of_after? hafter, stops_iff.2 hrest⟩
  · rintro ⟨rest, rfl, hrest⟩
    exact ⟨rest, after?_append .., stops_iff.1 hrest⟩

/-- Of two keywords at the front of a text, the one at the edge of a word is not the shorter one. -/
theorem keyword_length_le {j k : Keyword} {rest rest' : List Char} (hk : Stops W.has rest)
    (h : k.spelling.toList ++ rest = j.spelling.toList ++ rest') : j.spelling.length ≤ k.spelling.length := by
  by_contra hlt
  rw [Nat.not_le, ← String.length_toList, ← String.length_toList] at hlt
  obtain ⟨more, hj⟩ : k.spelling.toList <+: j.spelling.toList :=
    List.prefix_of_prefix_length_le ⟨rest, rfl⟩ ⟨rest', h.symm⟩ hlt.le
  rw [← hj, List.append_assoc] at h
  have hrest := List.append_cancel_left h
  cases more with
  | nil => simp [← hj] at hlt
  | cons c more =>
    have hc : isWordChar c = true :=
      isWordChar_of_isIdentifier (isIdentifier_spelling j) c (by rw [← hj]; simp)
    have hstop := hk c (by simp [hrest])
    rw [W.has_of_isWordChar hc] at hstop
    cases hstop

theorem keywordLength?_eq_some_iff : keywordLength? W cs = some n ↔
    ∃ k : Keyword, ∃ rest, cs = k.spelling.toList ++ rest ∧ Stops W.has rest ∧ k.spelling.length = n := by
  rw [keywordLength?, Option.map_eq_some_iff]
  constructor
  · rintro ⟨k, hk, rfl⟩
    obtain ⟨rest, hcs, hrest⟩ := standsAt_iff.1 (List.find?_some hk)
    exact ⟨k, rest, hcs, hrest, rfl⟩
  · rintro ⟨k, rest, hcs, hrest, rfl⟩
    cases hfind : Keyword.all.find? (standsAt W cs) with
    | none => exact absurd (standsAt_iff.2 ⟨rest, hcs, hrest⟩) (List.find?_eq_none.1 hfind k (Keyword.mem_all k))
    | some j =>
      obtain ⟨rest', hcs', hrest'⟩ := standsAt_iff.1 (List.find?_some hfind)
      refine ⟨j, rfl, Nat.le_antisymm ?_ ?_⟩
      · exact keyword_length_le hrest (hcs.symm.trans hcs')
      · exact keyword_length_le hrest' (hcs'.symm.trans hcs)

theorem lengthBy?_of_ne (h : r ≠ .keyword) : lengthBy? W cs r = r.length? cs := by
  cases r with
  | keyword => exact absurd rfl h
  | _ => rfl

/-- A word of the class ends no earlier than an ASCII one, so the table's own rule takes as much. -/
theorem length?_of_lengthBy? (h : lengthBy? W cs r = some n) : r.length? cs = some n := by
  by_cases hr : r = .keyword
  · subst hr
    obtain ⟨k, rest, rfl, hrest, rfl⟩ := keywordLength?_eq_some_iff.1 h
    rw [length?_of_lexeme (.keyword (W.stops_isWordChar hrest)), String.length_toList]
  · rwa [lengthBy?_of_ne hr] at h

theorem lengthBy?_names : lengthBy? .names cs r = r.length? cs := by
  refine Option.ext fun n => ⟨length?_of_lengthBy?, fun h => ?_⟩
  by_cases hr : r = .keyword
  · subst hr
    obtain ⟨text, rest, rfl, rfl, hlexeme⟩ := exists_lexeme h
    cases hlexeme with
    | @keyword k _ hrest => exact keywordLength?_eq_some_iff.2 ⟨k, rest, rfl, hrest, String.length_toList.symm⟩
  · rwa [lengthBy?_of_ne hr]

theorem firstBy?_names : firstBy? .names cs = first? cs := by
  rw [firstBy?, show lengthBy? .names cs = fun r => r.length? cs from funext fun _ => lengthBy?_names]
  rfl

/-- The pairs of rules, the earlier one first, that share a first character. -/
inductive Rivals : Rule → Rule → Prop
  | strings : Rivals .rawString .string
  | signs : Rivals (.mark .arrow) (.mark .assign)
  | braces : Rivals .templateVar (.mark .lbrace)
  | words : Rivals .keyword .identifier

theorem rivals_of_starts {r' : Rule} {c : Char} (hr : r.starts c = true) (hr' : r'.starts c = true)
    (hlt : table.idxOf r < table.idxOf r') : Rivals r r' := by
  have hsole : ∀ d, c = d → (∀ r ∈ table, r.starts d = true → table.idxOf r' ≤ table.idxOf r) → Rivals r r' := by
    rintro d rfl h
    exact absurd hlt (Nat.not_lt.2 (h r (mem_table r) hr))
  cases r' with
  | blanks => exact absurd hlt (by simp [table])
  | mark m =>
    rcases before_mark (beq_iff_eq.1 hr') hr hlt with ⟨rfl, rfl⟩ | ⟨rfl, rfl⟩
    · exact .braces
    · exact .signs
  | number =>
    obtain rfl := number_of_starts hr' hr
    exact absurd hlt (Nat.lt_irrefl _)
  | keyword =>
    rcases word_of_starts hr' hr with rfl | rfl
    · exact absurd hlt (Nat.lt_irrefl _)
    · exact absurd hlt (by decide)
  | identifier =>
    rcases word_of_starts hr' hr with rfl | rfl
    · exact .words
    · exact absurd hlt (Nat.lt_irrefl _)
  | string =>
    obtain rfl := beq_iff_eq.1 hr'
    have honly : ∀ r ∈ table, r.starts '"' = true → table.idxOf r < table.idxOf .string → r = .rawString := by decide
    rw [honly r (mem_table r) hr hlt]
    exact .strings
  | _ => exact hsole _ (beq_iff_eq.1 hr') (by decide)

/-- Of two rules that share a first character, the earlier one takes no less than the later one. -/
theorem Rivals.length_le {r' : Rule} {m : Nat} (h : Rivals r r') (hn : lengthBy? W cs r = some n) (hpos : 0 < n)
    (hm : lengthBy? W cs r' = some m) : m ≤ n := by
  cases h with
  | strings =>
    -- to the rule for strings, the first two of three quotes are a string
    obtain ⟨text, rest, rfl, rfl, hlexeme⟩ := exists_lexeme (length?_of_lengthBy? hn)
    cases hlexeme
    cases hm
    simp
  | signs =>
    obtain ⟨_, -, rfl⟩ := Option.map_eq_some_iff.1 hm
    exact hpos
  | braces =>
    obtain ⟨_, -, rfl⟩ := Option.map_eq_some_iff.1 hm
    exact hpos
  | words =>
    obtain ⟨k, rest, rfl, hrest, rfl⟩ := keywordLength?_eq_some_iff.1 hn
    have hname : Lexeme .identifier k.spelling.toList rest :=
      .identifier (isIdentifier_spelling k) (W.stops_isWordChar hrest)
    rw [lengthBy?_of_ne (by decide), length?_of_lexeme hname, String.length_toList] at hm
    cases hm
    exact Nat.le_refl _

theorem isLongest_of_firstBy? (h : firstBy? W cs = some (r, n)) : IsLongest W cs r n := by
  obtain ⟨hn, hpos, hmin⟩ := firstOf?_eq_some h
  refine ⟨hn, hpos, fun r' m hm => ?_, fun r' hn' => ?_⟩
  · rcases Nat.lt_trichotomy (table.idxOf r') (table.idxOf r) with hlt | heq | hgt
    · rw [hmin r' hlt m hm]
      exact Nat.zero_le n
    · obtain rfl := eq_of_idxOf_eq heq
      rw [hn] at hm
      cases hm
      exact Nat.le_refl n
    · rcases Nat.eq_zero_or_pos m with rfl | hm0
      · exact Nat.zero_le n
      cases cs with
      | nil =>
        obtain ⟨text, rest, hnil, rfl, -⟩ := exists_lexeme (length?_of_lengthBy? hm)
        simp [(List.append_eq_nil_iff.1 hnil.symm).1] at hm0
      | cons c cs =>
        have hstart := starts_of_length? (length?_of_lengthBy? hn) hpos
        have hstart' := starts_of_length? (length?_of_lengthBy? hm) hm0
        exact (rivals_of_starts hstart hstart' hgt).length_le hn hpos hm
  · by_contra hlt
    exact absurd (hmin r' (Nat.not_le.1 hlt) n hn') (by omega)

theorem IsLongest.unique {r' : Rule} {m : Nat} (h : IsLongest W cs r n) (h' : IsLongest W cs r' m) : r = r' ∧ n = m := by
  obtain rfl : n = m := Nat.le_antisymm (h'.longest _ _ h.takes) (h.longest _ _ h'.takes)
  exact ⟨eq_of_idxOf_eq (Nat.le_antisymm (h.earliest _ h'.takes) (h'.earliest _ h.takes)), rfl⟩

/-- A rule that takes something decides if none before it does. -/
theorem firstBy?_of_takes (hn : lengthBy? W cs r = some n) (hpos : 0 < n)
    (hmin : ∀ r', table.idxOf r' < table.idxOf r → ∀ m, lengthBy? W cs r' = some m → m = 0) :
    firstBy? W cs = some (r, n) := by
  cases hfirst : firstBy? W cs with
  | none => exact absurd (firstOf?_eq_none hfirst r hn) (by omega)
  | some x =>
    obtain ⟨r₀, m⟩ := x
    obtain ⟨hm, hm0, hmin₀⟩ := firstOf?_eq_some hfirst
    rcases Nat.lt_trichotomy (table.idxOf r) (table.idxOf r₀) with hlt | heq | hgt
    · exact absurd (hmin₀ r hlt n hn) (by omega)
    · obtain rfl := eq_of_idxOf_eq heq
      rw [hn] at hm
      cases hm
      rfl
    · exact absurd (hmin r₀ hgt m hm) (by omega)

theorem firstBy?_eq_some_iff : firstBy? W cs = some (r, n) ↔ IsLongest W cs r n := by
  refine ⟨isLongest_of_firstBy?, fun h => ?_⟩
  cases hfirst : firstBy? W cs with
  | none => exact absurd (firstOf?_eq_none hfirst r h.takes) (Nat.ne_of_gt h.pos)
  | some x =>
    obtain ⟨rfl, rfl⟩ := (isLongest_of_firstBy? hfirst).unique h
    rfl

/-- No rule takes anything from a text that starts outside ASCII. -/
theorem toNat_lt_of_starts {c : Char} (h : r.starts c = true) : c.toNat < 128 := by
  have hword : isWordStart c = true → c.toNat < 128 := fun hc =>
    WordClass.toNat_lt_of_isWordChar (isWordChar_of_start hc)
  cases r with
  | blanks => rcases isSkipped_iff.1 h with rfl | rfl | rfl <;> decide
  | mark m =>
    obtain ⟨d, hd, hascii⟩ : ∃ d : Char, m.spelling.toList.head? = some d ∧ d.toNat < 128 := by
      cases m <;> exact ⟨_, rfl, by decide⟩
    rw [starts, hd, beq_iff_eq, Option.some.injEq] at h
    rwa [← h]
  | number => exact WordClass.toNat_lt_of_isWordChar (by simp_all [starts, isWordChar, Char.isAlphanum])
  | keyword => exact hword h
  | identifier => exact hword h
  | _ => rw [beq_iff_eq.1 h]; decide

theorem first?_eq_none_of_has {c : Char} {rest : List Char} (hhas : W.has c = true) (hc : isWordChar c = false) :
    first? (c :: rest) = none := by
  cases hfirst : first? (c :: rest) with
  | none => rfl
  | some x =>
    obtain ⟨hn, hpos, -⟩ := first?_eq_some hfirst
    have hascii := W.ascii c (toNat_lt_of_starts (starts_of_length? hn hpos))
    rw [hhas, hc] at hascii
    cases hascii

/-- A keyword in front of a word character outside ASCII is read as a name. -/
theorem firstBy?_of_not_stops {k : Keyword} {rest : List Char} (hstops : Stops isWordChar rest)
    (hhas : ¬ Stops W.has rest) :
    firstBy? W (k.spelling.toList ++ rest) = some (.identifier, k.spelling.toList.length) := by
  have hname := isIdentifier_spelling k
  have htakes : lengthBy? W (k.spelling.toList ++ rest) .identifier = some k.spelling.toList.length :=
    length?_of_lexeme (.identifier hname hstops)
  obtain ⟨c, cs, hcs⟩ : ∃ c cs, k.spelling.toList = c :: cs := by cases k <;> exact ⟨_, _, rfl⟩
  refine firstBy?_of_takes htakes (by simp [hcs]) fun r hlt m hm => ?_
  rcases Nat.eq_zero_or_pos m with hm0 | hm0
  · exact hm0
  have hlength := length?_of_lengthBy? hm
  have hstart : isWordStart c = true := by
    rw [hcs, isIdentifier, Bool.and_eq_true] at hname
    exact hname.1
  rcases word_of_starts hstart (starts_of_length? (by rwa [hcs] at hlength) hm0) with rfl | rfl
  · -- a keyword at the edge of a word would have to be the same one
    rw [length?_of_lexeme (.keyword hstops)] at hlength
    obtain ⟨j, rest', heq, hrest', rfl⟩ := keywordLength?_eq_some_iff.1 hm
    rw [Option.some.injEq, ← String.length_toList] at hlength
    rw [(List.append_inj heq hlength).2] at hhas
    exact absurd hrest' hhas
  · exact absurd hlt (Nat.lt_irrefl _)

end Rule

open Rule

/-- A text read lexeme by lexeme, each the longest that any rule takes: up to its end, or to a place where no rule
takes anything. -/
inductive Munched (W : WordClass) : Position → List Char → Except LexError (List Token) → Prop
  | done {pos} : Munched W pos [] (.ok [.eofAt pos])
  | stuck {pos c cs} :
      (∀ r n, lengthBy? W (c :: cs) r = some n → n = 0) → Munched W pos (c :: cs) (.error ⟨c, pos⟩)
  | lexeme {pos r text rest result} :
      IsLongest W (text ++ rest) r text.length → Munched W (pos.after text) rest result →
      Munched W pos (text ++ rest) (result.map (r.emit text pos ++ ·))

namespace Munched

variable {W : WordClass} {pos : Position} {cs : List Char} {result : Except LexError (List Token)}

theorem unique (h : Munched W pos cs result) {result' : Except LexError (List Token)} (h' : Munched W pos cs result') :
    result = result' := by
  induction h generalizing result' with
  | done =>
    generalize hcs : ([] : List Char) = cs at h'
    cases h' with
    | done => rfl
    | stuck => cases hcs
    | lexeme hlongest =>
      have hnil := (List.append_eq_nil_iff.1 hcs.symm).1
      exact absurd hlongest.pos (by simp [hnil])
  | stuck hnone =>
    generalize hcs : _ :: _ = cs at h'
    cases h' with
    | done => cases hcs
    | stuck => cases hcs; rfl
    | lexeme hlongest =>
      rw [← hcs] at hlongest
      exact absurd (hnone _ _ hlongest.takes) (Nat.ne_of_gt hlongest.pos)
  | @lexeme pos r text rest result hlongest _ ih =>
    generalize hcs : text ++ rest = cs at h'
    cases h' with
    | done =>
      have hnil := (List.append_eq_nil_iff.1 hcs).1
      exact absurd hlongest.pos (by simp [hnil])
    | stuck hnone =>
      rw [hcs] at hlongest
      exact absurd (hnone _ _ hlongest.takes) (Nat.ne_of_gt hlongest.pos)
    | lexeme hlongest' hrest =>
      rw [← hcs] at hlongest'
      obtain ⟨rfl, hlen⟩ := hlongest.unique hlongest'
      obtain ⟨rfl, rfl⟩ := List.append_inj hcs hlen
      rw [ih hrest]

end Munched

theorem Scanned.error_of_not_stops {W : WordClass} {pos : Position} {rest : List Char}
    {result : Except LexError (List Token)} (h : Scanned pos rest result) (hstops : Stops isWordChar rest)
    (hhas : ¬ Stops W.has rest) : ∃ e, result = .error e := by
  have hnone : rest ≠ [] ∧ first? rest = none := by
    cases rest with
    | nil => exact absurd (by simp [Stops]) hhas
    | cons c rest =>
      have hc : W.has c = true := by simpa [Stops] using hhas
      exact ⟨by simp, first?_eq_none_of_has hc (hstops c rfl)⟩
  cases h with
  | done => exact absurd rfl hnone.1
  | stuck => exact ⟨_, rfl⟩
  | lexeme hfirst =>
    rw [hnone.2] at hfirst
    cases hfirst

/-- What the scanner does is to take the longest lexeme each time. -/
theorem munched_of_scanned (W : WordClass) {pos : Position} {cs : List Char} {result : Except LexError (List Token)}
    (h : Scanned pos cs result) : Munched W pos cs result := by
  induction h with
  | done => exact .done
  | stuck hnone => exact .stuck fun r n hn => length?_of_first?_eq_none hnone r (length?_of_lengthBy? hn)
  | @lexeme pos r text rest result hfirst hne hlexeme hscanned ih =>
    obtain ⟨hn, hpos, hmin⟩ := first?_eq_some hfirst
    have hmin' : ∀ r', table.idxOf r' < table.idxOf r → ∀ m, lengthBy? W (text ++ rest) r' = some m → m = 0 :=
      fun r' hlt m hm => hmin r' hlt m (length?_of_lengthBy? hm)
    by_cases htakes : lengthBy? W (text ++ rest) r = some text.length
    · exact .lexeme (isLongest_of_firstBy? (firstBy?_of_takes htakes hpos hmin')) ih
    -- a keyword that a word character outside ASCII follows is read as a name, and nothing is read after it
    obtain rfl : r = .keyword := by
      by_contra hr
      exact htakes (by rw [lengthBy?_of_ne hr, hn])
    cases hlexeme with
    | @keyword k _ hstops =>
      have hhas : ¬ Stops W.has rest := fun hhas =>
        htakes (keywordLength?_eq_some_iff.2 ⟨k, rest, rfl, hhas, String.length_toList.symm⟩)
      have hlongest := isLongest_of_firstBy? (firstBy?_of_not_stops (k := k) hstops hhas)
      obtain ⟨e, rfl⟩ := hscanned.error_of_not_stops hstops hhas
      have hmunched := Munched.lexeme hlongest ih
      exact hmunched

/-- The first rule that takes something takes the longest lexeme, with the characters of names as the only word
characters or with any others outside ASCII. So the tokens of a source text, or its error, are those that reading it by
longest lexemes gives. -/
theorem first?_longest (W : WordClass) :
    (∀ cs r n, firstBy? W cs = some (r, n) ↔ IsLongest W cs r n) ∧
      (∀ cs, first? cs = firstBy? .names cs) ∧
      ∀ source result, Token.tokenize source = result ↔ Munched W .start source.toList result := by
  refine ⟨fun cs r n => firstBy?_eq_some_iff, fun cs => firstBy?_names.symm, fun source result => ?_⟩
  have hmunched : Munched W .start source.toList (Token.tokenize source) :=
    munched_of_scanned W (Token.scanned .start source.toList)
  constructor
  · rintro rfl
    exact hmunched
  · exact fun h => hmunched.unique h

def WordClass.accented : WordClass :=
  ⟨fun c => isWordChar c || c == 'é', fun c hc => by
    have hne : (c == 'é') = false := by
      rw [beq_eq_false_iff_ne]
      rintro rfl
      exact absurd hc (by decide)
    rw [hne, Bool.or_false]⟩

example : firstBy? .accented "def x".toList = some (.keyword, 3) ∧
    firstBy? .accented "defé".toList = some (.identifier, 3) ∧ first? "defé".toList = some (.keyword, 3) := by
  decide

end ChainCompiler
