import ChainCompiler.Program.Literal
import ChainCompiler.Proofs.Scanning

/-! The texts of scanned tokens. They agree with the kinds of their tokens, and names in them are identifiers. -/

namespace ChainCompiler

open Text

def IsFreeName (name : String) : Prop := isIdentifier name.toList = true ∧ ∀ k : Keyword, name ≠ k.spelling

theorem isWordChar_of_isIdentifier {name : List Char} (h : isIdentifier name = true) :
    ∀ c ∈ name, isWordChar c = true := by
  cases name with
  | nil => simp
  | cons c cs =>
    simp only [isIdentifier, Bool.and_eq_true, List.all_eq_true] at h
    intro d hd
    rcases List.mem_cons.1 hd with rfl | hd
    · exact isWordChar_of_start h.1
    · exact h.2 d hd

theorem takeWhile_append_of_stops {p : Char → Bool} {front rest : List Char} (hfront : ∀ c ∈ front, p c = true)
    (hrest : Stops p rest) : (front ++ rest).takeWhile p = front := by
  rw [List.takeWhile_append_of_pos hfront]
  cases rest with
  | nil => simp
  | cons c rest => rw [List.takeWhile_cons_of_neg (by simp [hrest c rfl]), List.append_nil]

theorem dropWhile_of_stops {p : Char → Bool} {cs : List Char} (h : Stops p cs) : cs.dropWhile p = cs := by
  cases cs with
  | nil => rfl
  | cons c cs => rw [List.dropWhile_cons_of_neg (by simp [h c rfl])]

/-- The braces around a variable are no part of its name. -/
theorem variableName_of_braces {name : List Char} (h : isIdentifier name = true) :
    Literal.variableName (String.ofList (['\x7b', '\x7b'] ++ name ++ ['\x7d', '\x7d'])) = String.ofList name := by
  have hbrace : ∀ c ∈ name, (c == '\x7b') = false ∧ (c == '\x7d') = false := by
    intro c hc
    have hword := isWordChar_of_isIdentifier h c hc
    simp only [beq_eq_false_iff_ne]
    constructor
    · rintro rfl
      exact absurd hword (by decide)
    · rintro rfl
      exact absurd hword (by decide)
  have hopen : Stops (· == '\x7b') (name ++ ['\x7d', '\x7d']) := by
    cases name with
    | nil => cases h
    | cons c cs => simpa [Stops] using (hbrace c (by simp)).1
  have hclose : Stops (· == '\x7d') name.reverse := by
    intro c hc
    exact (hbrace c (List.mem_reverse.1 (List.mem_of_mem_head? hc))).2
  simp only [Literal.variableName, String.toList_ofList, List.cons_append, List.nil_append]
  rw [List.dropWhile_cons_of_pos (by simp), List.dropWhile_cons_of_pos (by simp), dropWhile_of_stops hopen,
    List.reverse_append]
  simp only [List.reverse_cons, List.reverse_nil, List.nil_append, List.cons_append]
  rw [List.dropWhile_cons_of_pos (by simp), List.dropWhile_cons_of_pos (by simp), dropWhile_of_stops hclose,
    List.reverse_reverse]

namespace Token

/-- What is known of the text of a scanned token. -/
def Lexical (t : Token) : Prop :=
  match t.kind with
  | .keyword k => t.text = k.spelling
  | .identifier => IsFreeName t.text
  | .number => IsNumeral t.text
  | .templateVar => isIdentifier (Literal.variableName t.text).toList = true
  | _ => True

theorem Lexical.spelling {t : Token} (h : t.Lexical) {k : Keyword} (hk : t.kind = .keyword k) :
    t.text = k.spelling := by
  simpa only [Lexical, hk] using h

theorem Lexical.isFreeName {t : Token} (h : t.Lexical) (hk : t.kind = .identifier) : IsFreeName t.text := by
  simpa only [Lexical, hk] using h

/-- Keywords are tried before names, so a name is none. -/
theorem isFreeName_of_first? {name rest : List Char} (hname : isIdentifier name = true) (hrest : Stops isWordChar rest)
    (h : Rule.first? (name ++ rest) = some (.identifier, name.length)) : IsFreeName (String.ofList name) := by
  refine ⟨by rwa [String.toList_ofList], fun k hk => ?_⟩
  have hkeyword : Rule.keyword.length? (name ++ rest) = some name.length := by
    simp only [Rule.length?, takeWhile_append_of_stops (isWordChar_of_isIdentifier hname) hrest, hk,
      Keyword.ofSpelling?_spelling, Option.map_some]
  have hzero := (Rule.first?_eq_some h).2.2 .keyword (by decide) _ hkeyword
  rw [List.length_eq_zero_iff.1 hzero] at hname
  cases hname

theorem lexical_of_mem_emit {r : Rule} {text rest : List Char} {pos : Position} {t : Token}
    (hlexeme : Lexeme r text rest) (hfirst : Rule.first? (text ++ rest) = some (r, text.length))
    (ht : t ∈ r.emit text pos) : t.Lexical := by
  cases hlexeme with
  | blanks => cases ht
  | comment => cases ht
  | @keyword k _ _ =>
    simp only [Rule.emit, String.ofList_toList, Rule.kind?_spelling, List.mem_singleton] at ht
    rw [ht]
    rfl
  | @templateVar name _ hname =>
    obtain rfl := List.mem_singleton.1 ht
    have hvariable := variableName_of_braces hname
    simpa only [Lexical, hvariable, String.toList_ofList] using hname
  | @number whole fraction _ hne hwhole hfraction _ _ =>
    obtain rfl := List.mem_singleton.1 ht
    exact ⟨whole, fraction, String.toList_ofList, hne, hwhole, hfraction⟩
  | @identifier name _ hname hrest =>
    obtain rfl := List.mem_singleton.1 ht
    exact isFreeName_of_first? hname hrest hfirst
  | _ =>
    obtain rfl := List.mem_singleton.1 ht
    exact trivial

theorem lexical_of_scanned {pos : Position} {cs : List Char} {ts : List Token} (h : Scanned pos cs (.ok ts)) :
    ∀ t ∈ ts, t.Lexical := by
  generalize hresult : Except.ok ts = result at h
  induction h generalizing ts with
  | done =>
    cases hresult
    intro t ht
    obtain rfl := List.mem_singleton.1 ht
    exact trivial
  | stuck => cases hresult
  | @lexeme pos r text rest result hfirst _ hlexeme _ ih =>
    cases result with
    | error e => cases hresult
    | ok us =>
      cases hresult
      intro t ht
      exact (List.mem_append.1 ht).elim (lexical_of_mem_emit hlexeme hfirst) (ih rfl t)

end Token

end ChainCompiler
