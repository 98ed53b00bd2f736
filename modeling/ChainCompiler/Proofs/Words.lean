import ChainCompiler.Proofs.Longest
import ChainCompiler.Proofs.Unquoting

/-! Words in a source. A token that starts with a letter or an underscore is a whole word, up to a character that no
word has, and it is a keyword exactly if it is spelled like one. Where words end outside ASCII makes no difference: a
keyword in front of such a character may be taken for a name, but no rule takes that character afterwards. -/

namespace ChainCompiler

open Text

namespace Position

/-- Each character of a text is at a place of its own. -/
theorem eq_nil_of_ofText_append {before more : List Char} (h : ofText (before ++ more) = ofText before) :
    more = [] := by
  have hline : 1 + (before ++ more).count '\n' = 1 + before.count '\n' := congrArg line h
  have hcolumn : 1 + ((before ++ more).reverse.takeWhile (· ≠ '\n')).length =
      1 + (before.reverse.takeWhile (· ≠ '\n')).length := congrArg column h
  have hbreak : '\n' ∉ more := by
    rw [List.count_append] at hline
    exact List.count_eq_zero.1 (by omega)
  have hall : ∀ c ∈ more.reverse, decide (c ≠ '\n') = true := by
    intro c hc
    rw [decide_eq_true_iff]
    rintro rfl
    exact hbreak (List.mem_reverse.1 hc)
  rw [List.reverse_append, List.takeWhile_append_of_pos hall, List.length_append, List.length_reverse] at hcolumn
  exact List.length_eq_zero_iff.1 (by omega)

theorem ofText_injOn {source a b : List Char} (ha : a <+: source) (hb : b <+: source) (h : ofText a = ofText b) :
    a = b := by
  rcases List.prefix_or_prefix_of_prefix ha hb with ⟨more, rfl⟩ | ⟨more, rfl⟩
  · rw [eq_nil_of_ofText_append h.symm, List.append_nil]
  · rw [eq_nil_of_ofText_append h, List.append_nil]

end Position

namespace Token

/-- The token is in the source at its place, with the one text before it and the other after it. -/
structure StandsBetween (t : Token) (source before rest : List Char) : Prop where
  text : source = before ++ t.text.toList ++ rest
  pos : t.pos = .ofText before

theorem StandsBetween.unique {t : Token} {source before before' rest rest' : List Char}
    (h : t.StandsBetween source before rest) (h' : t.StandsBetween source before' rest') : rest = rest' := by
  have hbefore : before <+: source := ⟨t.text.toList ++ rest, by rw [← List.append_assoc, h.text]⟩
  have hbefore' : before' <+: source := ⟨t.text.toList ++ rest', by rw [← List.append_assoc, h'.text]⟩
  obtain rfl := Position.ofText_injOn hbefore hbefore' (h.pos.symm.trans h'.pos)
  exact List.append_cancel_left (h.text.symm.trans h'.text)

def startsWord (t : Token) : Bool := t.text.toList.head?.any isWordStart

theorem startsWord_of_isIdentifier {t : Token} (h : isIdentifier t.text.toList = true) : t.startsWord = true := by
  unfold startsWord
  cases hcs : t.text.toList with
  | nil =>
    rw [hcs] at h
    cases h
  | cons c cs =>
    rw [hcs, isIdentifier, Bool.and_eq_true] at h
    exact h.1

variable {source : String} {ts : List Token} {t : Token}

theorem kind_ne_eof_of_startsWord (h : tokenize source = .ok ts) (ht : t ∈ ts) (hstart : t.startsWord = true) :
    t.kind ≠ .eof := by
  have hscanned := scanned_of_tokenize h
  obtain ⟨init, rfl, -⟩ : Accounts [] source.toList (.ok ts) := accounts_of_scanned hscanned rfl
  rcases List.mem_append.1 ht with hmem | hlast
  · exact (endsOnce_of_scanned hscanned).ne_eof t hmem
  · rw [List.mem_singleton.1 hlast] at hstart
    cases hstart

/-- The two rules for words go on to the edge of the word. -/
theorem stops_of_word {r : Rule} {text rest : List Char} (h : Lexeme r text rest)
    (hr : r = .keyword ∨ r = .identifier) : Stops isWordChar rest := by
  rcases hr with rfl | rfl
  · cases h with
    | keyword hrest => exact hrest
  · cases h with
    | identifier _ hrest => exact hrest

theorem exists_keyword_of_lexeme {text : String} {rest : List Char} (h : Lexeme .keyword text.toList rest) :
    ∃ k : Keyword, text = k.spelling := by
  generalize hcs : text.toList = cs at h
  cases h with
  | @keyword k _ => exact ⟨k, String.toList_injective hcs⟩

/-- A token that starts as words do is a keyword or a free name. What comes after it is scanned too, so that starts with
no word character of any class. -/
theorem word_of_startsWord (W : WordClass) (h : tokenize source = .ok ts) (ht : t ∈ ts)
    (hstart : t.startsWord = true) :
    ∃ before rest, t.StandsBetween source.toList before rest ∧ Stops isWordChar rest ∧ Stops W.has rest ∧
      ((∃ k, t.kind = .keyword k ∧ t.text = k.spelling) ∨ t.kind = .identifier ∧ IsFreeName t.text) := by
  have horigin : Position.start = .ofText [] := rfl
  obtain ⟨r, before, rest, hsource, hpos, hfirst, hkind, pos, us, hscanned⟩ :=
    exists_rule_of_scanned (scanned_of_tokenize h) horigin ht (kind_ne_eof_of_startsWord h ht hstart)
  have hlexeme := lexeme_of_first?_text hfirst
  have hrule : r = .keyword ∨ r = .identifier := by
    obtain ⟨c, hc, hword⟩ := (Option.any_eq_true ..).1 hstart
    obtain ⟨cs, hcs⟩ := List.head?_eq_some_iff.1 hc
    rw [hcs] at hlexeme
    exact word_of_starts hword (Rule.starts_of_lexeme hlexeme)
  have hstops := stops_of_word hlexeme hrule
  refine ⟨before, rest, ⟨hsource, hpos⟩, hstops, ?_, ?_⟩
  · -- a character that only the class has starts no lexeme, so the scan would have failed there
    by_contra hhas
    obtain ⟨e, he⟩ := hscanned.error_of_not_stops hstops hhas
    cases he
  · have hlexical := lexical_of_scanned (scanned_of_tokenize h) t ht
    rcases hrule with rfl | rfl
    · obtain ⟨k, hk⟩ := exists_keyword_of_lexeme hlexeme
      rw [hk, Rule.kind?_spelling] at hkind
      exact .inl ⟨k, (Option.some.inj hkind).symm, hk⟩
    · have hname : t.kind = .identifier := (Option.some.inj hkind).symm
      exact .inr ⟨hname, hlexical.isFreeName hname⟩

theorem kind_eq_keyword_iff (h : tokenize source = .ok ts) (ht : t ∈ ts) {k : Keyword} :
    t.kind = .keyword k ↔ t.text = k.spelling := by
  constructor
  · intro hk
    exact (lexical_of_scanned (scanned_of_tokenize h) t ht).spelling hk
  · intro htext
    have hstart : t.startsWord = true := startsWord_of_isIdentifier (by rw [htext]; exact isIdentifier_spelling k)
    obtain ⟨-, -, -, -, -, ⟨j, hj, hspelling⟩ | ⟨-, hfree⟩⟩ := word_of_startsWord .names h ht hstart
    · rw [hj, Keyword.spelling_injective (hspelling.symm.trans htext)]
    · exact absurd htext (hfree.2 k)

theorem kind_eq_identifier_iff (h : tokenize source = .ok ts) (ht : t ∈ ts) :
    t.kind = .identifier ↔ t.startsWord = true ∧ ∀ k : Keyword, t.text ≠ k.spelling := by
  constructor
  · intro hname
    have hfree := (lexical_of_scanned (scanned_of_tokenize h) t ht).isFreeName hname
    exact ⟨startsWord_of_isIdentifier hfree.1, hfree.2⟩
  · rintro ⟨hstart, hfree⟩
    obtain ⟨-, -, -, -, -, ⟨k, -, hk⟩ | ⟨hname, -⟩⟩ := word_of_startsWord .names h ht hstart
    · exact absurd hk (hfree k)
    · exact hname

structure IsClassified (W : WordClass) (source : List Char) (t : Token) : Prop where
  /-- What starts as words do has only the characters of words. -/
  word : t.startsWord = true → ∀ c ∈ t.text.toList, isWordChar c = true
  placed : t.startsWord = true → ∃ before rest, t.StandsBetween source before rest
  /-- After it the source ends, or a character comes that no word has, neither in ASCII nor in the class. -/
  edge : t.startsWord = true → ∀ before rest, t.StandsBetween source before rest →
    ∀ c ∈ rest.head?, isWordChar c = false ∧ W.has c = false
  keyword : ∀ k, t.kind = .keyword k ↔ t.text = k.spelling
  identifier : t.kind = .identifier ↔ t.startsWord = true ∧ ∀ k : Keyword, t.text ≠ k.spelling

/-- The tokens of a source that start as words do are its words, each up to its edge. Those spelled like a keyword are
that keyword and the others are identifiers, so no identifier is spelled like a keyword. The rule for keywords may take
characters outside ASCII for word characters or not: the tokens are the same. -/
theorem tokenize_classifies (W : WordClass) (h : tokenize source = .ok ts) :
    Munched W .start source.toList (.ok ts) ∧ ∀ t ∈ ts, t.IsClassified W source.toList := by
  refine ⟨munched_of_scanned W (scanned_of_tokenize h), fun t ht => ?_⟩
  refine ⟨fun hstart => ?_, fun hstart => ?_, fun hstart before rest hbetween c hc => ?_,
    fun k => kind_eq_keyword_iff h ht, kind_eq_identifier_iff h ht⟩
  all_goals obtain ⟨before', rest', hstands, hascii, hclass, hkind⟩ := word_of_startsWord W h ht hstart
  · apply isWordChar_of_isIdentifier
    rcases hkind with ⟨k, -, hk⟩ | ⟨-, hfree⟩
    · rw [hk]
      exact isIdentifier_spelling k
    · exact hfree.1
  · exact ⟨before', rest', hstands⟩
  · obtain rfl := hbetween.unique hstands
    exact ⟨hascii c hc, hclass c hc⟩

/-- A keyword, a name that a keyword starts, and a keyword right after a mark. -/
def wordTokens : List Token :=
  [⟨.keyword .defKw, "def", ⟨1, 1⟩⟩, ⟨.identifier, "Inputs", ⟨1, 5⟩⟩, ⟨.mark .assign, "=", ⟨1, 11⟩⟩,
    ⟨.keyword .input, "Input", ⟨1, 12⟩⟩, ⟨.eof, "", ⟨1, 17⟩⟩]

theorem tokenize_classifies_wordTokens :
    tokenize "def Inputs=Input" = .ok wordTokens ∧ Munched .accented .start "def Inputs=Input".toList (.ok wordTokens) ∧
      ∀ t ∈ wordTokens, t.IsClassified .accented "def Inputs=Input".toList := by
  have htokens : tokenize "def Inputs=Input" = .ok wordTokens := rfl
  exact ⟨htokens, tokenize_classifies .accented htokens⟩

example : tokenize "defé" = .error ⟨'é', ⟨1, 4⟩⟩ := rfl

end Token

end ChainCompiler
