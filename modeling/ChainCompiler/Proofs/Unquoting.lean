import ChainCompiler.Proofs.Spelling
import ChainCompiler.Proofs.Tiling

/-! String literals are read as they are scanned. Which quotes enclose a literal is decided by the rule that takes it and
decided again by the reader of its contents; here both are shown to decide alike, and every text is shown to have a
literal. -/

namespace ChainCompiler

open Text Literal

/-- What a string literal is made of: characters other than quotes and backslashes, and backslashes, each with the
character after it. -/
inductive LiteralUnit where
  | plain (c : Char) (hquote : c ≠ '"') (hslash : c ≠ '\\')
  | pair (c : Char)

namespace LiteralUnit

def text : LiteralUnit → List Char
  | .plain c _ _ => [c]
  | .pair c => ['\\', c]

/-- What the unit stands for. Five pairs stand for one character, the others for both of theirs. -/
def value : LiteralUnit → List Char
  | .plain c _ _ => [c]
  | .pair 'n' => ['\n']
  | .pair 't' => ['\t']
  | .pair 'r' => ['\r']
  | .pair '"' => ['"']
  | .pair '\\' => ['\\']
  | .pair c => ['\\', c]

end LiteralUnit

theorem exists_literalUnits {body : List Char} (h : Units body) :
    ∃ us : List LiteralUnit, body = us.flatMap LiteralUnit.text := by
  induction h with
  | nil => exact ⟨[], rfl⟩
  | @plain c cs hquote hslash _ ih =>
    obtain ⟨us, rfl⟩ := ih
    exact ⟨.plain c hquote hslash :: us, rfl⟩
  | @escape c cs _ ih =>
    obtain ⟨us, rfl⟩ := ih
    exact ⟨.pair c :: us, rfl⟩

theorem units_flatMap_text (us : List LiteralUnit) : Units (us.flatMap LiteralUnit.text) := by
  induction us with
  | nil => exact .nil
  | cons u us ih =>
    cases u with
    | plain c hquote hslash => exact .plain hquote hslash ih
    | pair c => exact .escape ih

namespace Literal

theorem value_pair (c : Char) : (LiteralUnit.pair c).value = (escaped? c).elim ['\\', c] fun d => [d] := by
  unfold LiteralUnit.value
  split
  · next h => cases h
  · next h => cases h; rfl
  · next h => cases h; rfl
  · next h => cases h; rfl
  · next h => cases h; rfl
  · next h => cases h; rfl
  · next h => cases h; simp_all [escaped?]

theorem unescape_unit (u : LiteralUnit) (cs : List Char) : unescape (u.text ++ cs) = u.value ++ unescape cs := by
  cases u with
  | plain c hquote hslash =>
    change unescape (c :: cs) = c :: unescape cs
    rw [unescape.eq_3 c cs]
    rintro d ds rfl
    exact absurd rfl hslash
  | pair c =>
    change unescape ('\\' :: c :: cs) = _
    rw [unescape, value_pair]
    cases escaped? c <;> rfl

/-- A literal stands for what its units stand for. -/
theorem unescape_units (us : List LiteralUnit) :
    unescape (us.flatMap LiteralUnit.text) = us.flatMap LiteralUnit.value := by
  induction us with
  | nil => rfl
  | cons u us ih => rw [List.flatMap_cons, unescape_unit, ih, List.flatMap_cons]

/-- The second text is left of the first at some time while escapes are resolved. -/
inductive LeftOf (cs : List Char) : List Char → Prop
  | all : LeftOf cs cs
  | pair {c ds} : LeftOf cs ('\\' :: c :: ds) → LeftOf cs ds
  | single {c ds} : c ≠ '\\' → LeftOf cs (c :: ds) → LeftOf cs ds

theorem units_of_leftOf {cs ds : List Char} (hcs : Units cs) (h : LeftOf cs ds) : Units ds := by
  induction h with
  | all => exact hcs
  | pair _ ih =>
    cases ih with
    | plain _ hslash _ => exact absurd rfl hslash
    | escape h => exact h
  | single hc _ ih =>
    cases ih with
    | plain _ _ h => exact h
    | escape _ => exact absurd rfl hc

/-- No backslash is ever left without a character after it. -/
theorem not_leftOf_backslash {cs : List Char} (h : Units cs) : ¬LeftOf cs ['\\'] := by
  intro hleft
  have hunits := units_of_leftOf h hleft
  cases hunits with
  | plain _ hslash _ => exact hslash rfl

/-- The reader takes the text as one between three quotes. -/
def IsVerbatim (text : String) : Prop := (between? ['"', '"', '"'] text.toList).isSome = true

theorem between?_append (edge body : List Char) : between? edge (edge ++ body ++ edge) = some body := by
  have hfront : edge.isPrefixOf (edge ++ body ++ edge) = true := by
    rw [List.append_assoc]
    exact List.isPrefixOf_iff_prefix.2 (List.prefix_append _ _)
  have hback : edge.isSuffixOf (body ++ edge) = true := List.isSuffixOf_iff_suffix.2 (List.suffix_append _ _)
  have hlength : (edge ++ body ++ edge).length - 2 * edge.length = body.length := by
    simp only [List.length_append]
    omega
  rw [between?, hlength, hfront, List.append_assoc, List.drop_left, hback, List.take_left]
  rfl

/-- Units between two quotes do not start with three. -/
theorem between?_quotes_of_units {body : List Char} (h : Units body) :
    between? ['"', '"', '"'] ('"' :: body ++ ['"']) = none := by
  rw [between?, if_neg]
  rw [Bool.and_eq_true, List.isPrefixOf_iff_prefix]
  exact fun hquotes => not_quotes_prefix h (by simp) hquotes.1

theorem unquote_of_raw {text : String} {body : List Char}
    (h : text.toList = ['"', '"', '"'] ++ body ++ ['"', '"', '"']) :
    IsVerbatim text ∧ unquote text = String.ofList body := by
  have hbetween : between? ['"', '"', '"'] text.toList = some body := by rw [h, between?_append]
  constructor
  · rw [IsVerbatim, hbetween]
    rfl
  · simp only [unquote, hbetween]

theorem unquote_of_units {text : String} {us : List LiteralUnit}
    (h : text.toList = '"' :: us.flatMap LiteralUnit.text ++ ['"']) :
    ¬IsVerbatim text ∧ between? ['"'] text.toList = some (us.flatMap LiteralUnit.text) ∧
      unquote text = String.ofList (us.flatMap LiteralUnit.value) := by
  have hraw : between? ['"', '"', '"'] text.toList = none := by rw [h, between?_quotes_of_units (units_flatMap_text us)]
  have hplain : between? ['"'] text.toList = some (us.flatMap LiteralUnit.text) := by rw [h, between?_quote]
  refine ⟨by simp [IsVerbatim, hraw], hplain, ?_⟩
  simp only [unquote, hraw, hplain, Option.getD_some, unescape_units]

/-- A backslash in front of a quote and of a backslash; all else stands for itself. -/
def unitOf (c : Char) : LiteralUnit :=
  if h : c = '"' ∨ c = '\\' then .pair c else .plain c (fun hc => h (.inl hc)) (fun hc => h (.inr hc))

theorem value_unitOf (c : Char) : (unitOf c).value = [c] := by
  unfold unitOf
  split
  · next h => rcases h with rfl | rfl <;> rfl
  · rfl

/-- A text as a literal: a backslash is put before each of its quotes and backslashes, and quotes around it. -/
def ofText (s : String) : String :=
  String.ofList ('"' :: s.toList.flatMap (fun c => if c = '"' ∨ c = '\\' then ['\\', c] else [c]) ++ ['"'])

theorem toList_ofText (s : String) :
    (ofText s).toList = '"' :: (s.toList.map unitOf).flatMap LiteralUnit.text ++ ['"'] := by
  have hunit : ∀ c, (if c = '"' ∨ c = '\\' then ['\\', c] else [c]) = (unitOf c).text := by
    intro c
    unfold unitOf
    split <;> rfl
  simp only [ofText, hunit, String.toList_ofList, List.flatMap_map]

theorem unquote_ofText (s : String) : unquote (ofText s) = s := by
  rw [(unquote_of_units (toList_ofText s)).2.2, List.flatMap_map]
  simp only [value_unitOf, List.flatMap_singleton', String.ofList_toList]

end Literal

namespace Token

/-- The token is what the rule takes at the token's place in the source, and no rule before it takes anything there. -/
def IsFrom (source : String) (t : Token) (r : Rule) : Prop :=
  ∃ before rest, source.toList = before ++ t.text.toList ++ rest ∧ t.pos = .ofText before ∧
    Rule.first? (t.text.toList ++ rest) = some (r, t.text.length)

/-- Each token but the last is from a rule that gives tokens of its kind, and what comes after it is scanned too. -/
theorem exists_rule_of_scanned {pos : Position} {cs : List Char} {ts : List Token} (h : Scanned pos cs (.ok ts))
    {before : List Char} (hpos : pos = .ofText before) {t : Token} (ht : t ∈ ts) (hkind : t.kind ≠ .eof) :
    ∃ r front rest, cs = front ++ t.text.toList ++ rest ∧ t.pos = .ofText (before ++ front) ∧
      Rule.first? (t.text.toList ++ rest) = some (r, t.text.length) ∧ r.kind? t.text = some t.kind ∧
      ∃ pos' us, Scanned pos' rest (.ok us) := by
  generalize hresult : Except.ok ts = result at h
  induction h generalizing ts before with
  | done =>
    cases hresult
    obtain rfl := List.mem_singleton.1 ht
    exact absurd rfl hkind
  | stuck => cases hresult
  | @lexeme pos r text rest result hfirst _ _ hrest ih =>
    cases result with
    | error e => cases hresult
    | ok us =>
      cases hresult
      rcases List.mem_append.1 ht with ht | ht
      · unfold Rule.emit at ht
        split at ht
        · cases ht
        · next kind hk =>
          obtain rfl := List.mem_singleton.1 ht
          refine ⟨r, [], rest, by simp, by simpa using hpos, ?_, hk, _, us, hrest⟩
          simpa using hfirst
      · have hafter : pos.after text = .ofText (before ++ text) := by rw [hpos, Position.after_ofText]
        obtain ⟨r', front, rest', rfl, hat, hfirst', hk⟩ := ih hafter ht rfl
        exact ⟨r', text ++ front, rest', by simp, by simpa using hat, hfirst', hk⟩

theorem exists_isFrom {source : String} {ts : List Token} (h : tokenize source = .ok ts) {t : Token} (ht : t ∈ ts)
    (hkind : t.kind ≠ .eof) : ∃ r, t.IsFrom source r ∧ r.kind? t.text = some t.kind := by
  have hstart : Position.start = .ofText [] := rfl
  obtain ⟨r, front, rest, hcs, hpos, hfirst, hk, -⟩ := exists_rule_of_scanned (scanned_of_tokenize h) hstart ht hkind
  exact ⟨r, ⟨front, rest, hcs, hpos, hfirst⟩, hk⟩

theorem lexeme_of_first?_text {text : String} {rest : List Char} {r : Rule}
    (h : Rule.first? (text.toList ++ rest) = some (r, text.length)) : Lexeme r text.toList rest := by
  obtain ⟨front, rest', happend, hlength, -, hlexeme⟩ := Rule.lexeme_of_first? h
  rw [← String.length_toList] at hlength
  obtain ⟨rfl, rfl⟩ := List.append_inj happend hlength.symm
  exact hlexeme

theorem lexeme_of_isFrom {source : String} {t : Token} {r : Rule} (h : t.IsFrom source r) :
    ∃ rest, Lexeme r t.text.toList rest := by
  obtain ⟨before, rest, -, -, hfirst⟩ := h
  exact ⟨rest, lexeme_of_first?_text hfirst⟩

theorem exists_raw_of_isFrom {source : String} {t : Token} (h : t.IsFrom source .rawString) :
    ∃ body, t.text.toList = ['"', '"', '"'] ++ body ++ ['"', '"', '"'] := by
  obtain ⟨rest, hlexeme⟩ := lexeme_of_isFrom h
  generalize t.text.toList = text at hlexeme
  cases hlexeme with
  | @rawString body _ _ => exact ⟨body, rfl⟩

theorem exists_units_of_isFrom {source : String} {t : Token} (h : t.IsFrom source .string) :
    ∃ us : List LiteralUnit, t.text.toList = '"' :: us.flatMap LiteralUnit.text ++ ['"'] := by
  obtain ⟨rest, hlexeme⟩ := lexeme_of_isFrom h
  generalize t.text.toList = text at hlexeme
  cases hlexeme with
  | string hbody =>
    obtain ⟨us, rfl⟩ := exists_literalUnits hbody
    exact ⟨us, rfl⟩

/-- Two rules give string tokens. -/
theorem isFrom_of_string {source : String} {ts : List Token} (h : tokenize source = .ok ts) {t : Token} (ht : t ∈ ts)
    (hkind : t.kind = .string) : t.IsFrom source .rawString ∨ t.IsFrom source .string := by
  obtain ⟨r, hfrom, hk⟩ := exists_isFrom h ht (by simp [hkind])
  rw [hkind] at hk
  cases r with
  | rawString => exact .inl hfrom
  | string => exact .inr hfrom
  | keyword =>
    obtain hk | ⟨k, hk⟩ := Rule.kind_of_keyword hk <;> cases hk
  | _ => cases hk

theorem isVerbatim_iff_isFrom {source : String} {ts : List Token} (h : tokenize source = .ok ts) {t : Token}
    (ht : t ∈ ts) (hkind : t.kind = .string) : IsVerbatim t.text ↔ t.IsFrom source .rawString := by
  constructor
  · intro hverbatim
    rcases isFrom_of_string h ht hkind with hraw | hstring
    · exact hraw
    · obtain ⟨us, hus⟩ := exists_units_of_isFrom hstring
      exact absurd hverbatim (unquote_of_units hus).1
  · intro hraw
    obtain ⟨body, hbody⟩ := exists_raw_of_isFrom hraw
    exact (unquote_of_raw hbody).1

/-- The literal of a text is scanned as one string. -/
theorem tokenize_ofText (s : String) :
    tokenize (ofText s) =
      .ok [⟨.string, ofText s, .start⟩, .eofAt (.ofText (ofText s).toList)] := by
  have hfirst : Rule.first? ((ofText s).toList ++ []) = some (.string, (ofText s).toList.length) := by
    rw [toList_ofText]
    exact first?_string (units_flatMap_text _) (by simp)
  have hne : (ofText s).toList ≠ [] := by simp [toList_ofText]
  have hscan : scan .start 0 ((ofText s).toList ++ []) = _ := scan_lexeme hne hfirst
  rw [List.append_nil] at hscan
  rw [tokenize, hscan]
  have hstart : Position.start = .ofText [] := rfl
  have hend : Position.start.after (ofText s).toList = .ofText (ofText s).toList := by
    rw [hstart, Position.after_ofText, List.nil_append]
  simp only [scan, hend, Except.map, Rule.emit, Rule.kind?, String.ofList_toList, List.singleton_append]

/-- Scanner and reader agree on string literals. A string token is read as it stands exactly when the rule for three
quotes gave it, and then its value is what stands between them. Every other string token is a quote, units and a quote;
its value is what the units stand for, and reading it finds both quotes and no backslash without a character after it.
And every text is the value of the single token that its literal is scanned as. -/
theorem unquote_agrees_with_tokenize :
    (∀ (source : String) (ts : List Token), tokenize source = .ok ts → ∀ t ∈ ts, t.kind = .string →
      (IsVerbatim t.text ↔ t.IsFrom source .rawString) ∧
      (t.IsFrom source .rawString → ∃ body, t.text.toList = ['"', '"', '"'] ++ body ++ ['"', '"', '"'] ∧
        unquote t.text = String.ofList body) ∧
      (¬t.IsFrom source .rawString → t.IsFrom source .string ∧ ∃ us : List LiteralUnit,
        t.text.toList = '"' :: us.flatMap LiteralUnit.text ++ ['"'] ∧
        unquote t.text = String.ofList (us.flatMap LiteralUnit.value) ∧
        between? ['"'] t.text.toList = some (us.flatMap LiteralUnit.text) ∧
        ¬LeftOf (us.flatMap LiteralUnit.text) ['\\'])) ∧
    ∀ s : String, tokenize (ofText s) = .ok [⟨.string, ofText s, .start⟩, .eofAt (.ofText (ofText s).toList)] ∧
      unquote (ofText s) = s := by
  refine ⟨fun source ts h t ht hkind => ⟨isVerbatim_iff_isFrom h ht hkind, fun hraw => ?_, fun hraw => ?_⟩, fun s => ?_⟩
  · obtain ⟨body, hbody⟩ := exists_raw_of_isFrom hraw
    exact ⟨body, hbody, (unquote_of_raw hbody).2⟩
  · have hstring := (isFrom_of_string h ht hkind).resolve_left hraw
    obtain ⟨us, hus⟩ := exists_units_of_isFrom hstring
    obtain ⟨-, hbetween, hvalue⟩ := unquote_of_units hus
    exact ⟨hstring, us, hus, hvalue, hbetween, not_leftOf_backslash (units_flatMap_text us)⟩
  · exact ⟨tokenize_ofText s, unquote_ofText s⟩

end Token

end ChainCompiler
