import ChainCompiler.Program.Literal
import ChainCompiler.Proofs.Lexeme
import ChainCompiler.Text.Quoted

/-! Quoted text read back. Whatever text is quoted, the quote that ends the literal is the first one after its start
that no backslash stands in front of; and a text whose only control characters are line breaks and tabs is also given
back by the reader of string literals, which knows no escapes for the others. -/

namespace ChainCompiler

open Text Literal

/-- A character that quoting leaves in a form that string literals can hold. -/
def Readable (c : Char) : Prop := 0x20 ≤ c.toNat ∨ c = '\n' ∨ c = '\t' ∨ c = '\r'

instance (c : Char) : Decidable (Readable c) := by unfold Readable; infer_instance

namespace Rule

/-- A string ends with the first quote after its contents. -/
theorem stringEnd?_of_units {body : List Char} (h : Units body) (rest : List Char) :
    stringEnd? (body ++ '"' :: rest) = some (body.length + 1) := by
  induction h with
  | nil => rfl
  | @plain c cs hquote hslash _ ih =>
    rw [List.cons_append, stringEnd?.eq_5 c _ hquote hslash, ih]
    rfl
  | @escape c cs _ ih =>
    simp only [List.cons_append, stringEnd?, ih]
    rfl

end Rule

theorem Units.append {a b : List Char} (ha : Units a) (hb : Units b) : Units (a ++ b) := by
  induction ha with
  | nil => exact hb
  | plain hquote hslash _ ih => exact .plain hquote hslash ih
  | escape _ ih => exact .escape ih

theorem hexDigit_ne : ∀ n < 16, hexDigit n ≠ '"' ∧ hexDigit n ≠ '\\' := by decide

theorem units_escapeChar (c : Char) : Units (escapeChar c) := by
  unfold escapeChar
  split_ifs with hquote hslash _ _ _ _ _ hcontrol
  · exact .escape .nil
  · exact .escape .nil
  · exact .escape .nil
  · exact .escape .nil
  · exact .escape .nil
  · exact .escape .nil
  · exact .escape .nil
  · obtain ⟨hq, hs⟩ := hexDigit_ne (c.toNat / 16) (by omega)
    obtain ⟨hq', hs'⟩ := hexDigit_ne (c.toNat % 16) (by omega)
    exact .escape (.plain (by decide) (by decide) (.plain (by decide) (by decide) (.plain hq hs (.plain hq' hs' .nil))))
  · exact .plain hquote hslash .nil

/-- No quote inside a quoted text can end it. -/
theorem units_escape (cs : List Char) : Units (escape cs) := by
  induction cs with
  | nil => exact .nil
  | cons c cs ih => exact (units_escapeChar c).append ih

theorem unescape_escapeChar {c : Char} (hc : Readable c) (rest : List Char) :
    unescape (escapeChar c ++ rest) = c :: unescape rest := by
  unfold escapeChar
  split_ifs with h₁ h₂ h₃ h₄ h₅ h₆ h₇ h₈
  · rw [h₁]; rfl
  · rw [h₂]; rfl
  · exact absurd hc (by rw [h₃]; decide)
  · exact absurd hc (by rw [h₄]; decide)
  · rw [h₅]; rfl
  · rw [h₆]; rfl
  · rw [h₇]; rfl
  · rcases hc with hc | hc | hc | hc
    · omega
    · exact absurd hc h₅
    · exact absurd hc h₇
    · exact absurd hc h₆
  · rw [List.singleton_append, unescape.eq_3 c rest]
    rintro d cs rfl
    exact absurd rfl h₂

/-- Escapes are resolved to what they were made from. -/
theorem unescape_escape {cs : List Char} (h : ∀ c ∈ cs, Readable c) : unescape (escape cs) = cs := by
  induction cs with
  | nil => rfl
  | cons c cs ih =>
    rw [escape_cons, unescape_escapeChar (h c (by simp)), ih fun d hd => h d (by simp [hd])]

theorem between?_quote (inner : List Char) : between? ['"'] ('"' :: inner ++ ['"']) = some inner := by
  have hsuffix : ['"'].isSuffixOf (inner ++ ['"']) = true := List.isSuffixOf_iff_suffix.2 (List.suffix_append _ _)
  simp [between?, hsuffix]

/-- A string literal never starts with three quotes. -/
theorem not_quotes_prefix {body rest : List Char} (h : Units body) (hrest : rest.head? ≠ some '"') :
    ¬ ['"', '"', '"'] <+: '"' :: body ++ '"' :: rest := by
  intro hquotes
  rw [List.cons_append, List.cons_prefix_cons] at hquotes
  cases h with
  | nil =>
    rw [List.nil_append, List.cons_prefix_cons] at hquotes
    obtain ⟨more, hmore⟩ := hquotes.2.2
    exact hrest (by rw [← hmore]; rfl)
  | plain hquote =>
    rw [List.cons_append, List.cons_prefix_cons] at hquotes
    exact hquote hquotes.2.1.symm
  | escape =>
    rw [List.cons_append, List.cons_prefix_cons] at hquotes
    exact absurd hquotes.2.1 (by decide)

/-- The contents of a quoted text are the text. -/
theorem unquote_quote {s : String} (h : ∀ c ∈ s.toList, Readable c) : unquote (quote s) = s := by
  have hraw : between? ['"', '"', '"'] ('"' :: escape s.toList ++ ['"']) = none := by
    rw [between?, if_neg]
    rw [Bool.and_eq_true, List.isPrefixOf_iff_prefix]
    exact fun hquotes => not_quotes_prefix (units_escape _) (by simp) hquotes.1
  simp only [unquote, toList_quote, hraw, between?_quote, Option.getD_some, unescape_escape h, String.ofList_toList]

end ChainCompiler
