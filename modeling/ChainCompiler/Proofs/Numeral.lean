import ChainCompiler.Number.Reader

/-! Numerals: digits with an optional fraction. Every one of them is read as a double. -/

namespace ChainCompiler

def IsFraction (cs : List Char) : Prop := cs = [] ∨ ∃ ds, cs = '.' :: ds ∧ ds ≠ [] ∧ ∀ d ∈ ds, d.isDigit = true

def IsNumeral (text : String) : Prop :=
  ∃ whole fraction, text.toList = whole ++ fraction ∧ whole ≠ [] ∧ (∀ d ∈ whole, d.isDigit = true) ∧ IsFraction fraction

namespace Double

theorem spanDigits_append {ds rest : List Char} (hds : ∀ d ∈ ds, d.isDigit = true)
    (hrest : ∀ c ∈ rest.head?, c.isDigit = false) : spanDigits (ds ++ rest) = (ds, rest) := by
  rw [spanDigits, List.takeWhile_append_of_pos hds, List.dropWhile_append_of_pos hds]
  cases rest with
  | nil => simp
  | cons c rest => simp [hrest c (by simp)]

/-- The digits after the point are read as a fraction, with nothing left. -/
theorem spanFraction_fraction {fraction : List Char} (h : IsFraction fraction) :
    spanFraction fraction = (fraction.drop 1, []) := by
  rcases h with rfl | ⟨ds, rfl, -, hds⟩
  · rfl
  · have hspan : spanDigits (ds ++ []) = (ds, []) := spanDigits_append hds (by simp)
    rw [List.append_nil] at hspan
    exact hspan

theorem readUnsigned?_numeral {whole fraction : List Char} (hne : whole ≠ []) (hwhole : ∀ d ∈ whole, d.isDigit = true)
    (hfraction : IsFraction fraction) :
    readUnsigned? false (whole ++ fraction) =
      some (ofDecimal false (digitsValue (whole ++ fraction.drop 1)) (0 - (fraction.drop 1).length)) := by
  have hspan : spanDigits (whole ++ fraction) = (whole, fraction) := by
    apply spanDigits_append hwhole
    rcases hfraction with rfl | ⟨ds, rfl, -, -⟩ <;> simp
  simp [readUnsigned?, hspan, spanFraction_fraction hfraction, hne, readExponent?]

theorem toLower_of_isDigit {c : Char} (h : c.isDigit = true) : c.toLower = c := by
  refine dif_neg fun hupper => ?_
  simp only [Char.isDigit, Bool.and_eq_true, decide_eq_true_eq] at h
  exact absurd (UInt32.le_trans hupper.1 h.2) (by decide)

/-- A numeral has no sign and is no word, so its digits are read. -/
theorem read?_eq_ofDecimal {text : String} (h : IsNumeral text) :
    ∃ digits exponent, read? text = some (ofDecimal false digits exponent) := by
  obtain ⟨whole, fraction, htext, hne, hwhole, hfraction⟩ := h
  obtain ⟨d, ds, rfl⟩ := List.exists_cons_of_ne_nil hne
  have hd : d.isDigit = true := hwhole d (by simp)
  have hsign : spanSign text.toList = (false, text.toList) := by
    rw [htext, List.cons_append]
    unfold spanSign
    split
    · next heq => cases heq; exact absurd hd (by decide)
    · next heq => cases heq; exact absurd hd (by decide)
    · rfl
  have hword : ∀ c cs, c.isDigit = false → String.ofList (text.toList.map Char.toLower) ≠ String.ofList (c :: cs) := by
    intro c cs hc heq
    rw [String.ofList_inj, htext, List.cons_append, List.map_cons, toLower_of_isDigit hd] at heq
    cases heq
    simp [hd] at hc
  simp only [read?, hsign]
  rw [if_neg, if_neg, htext]
  · exact ⟨_, _, readUnsigned?_numeral hne hwhole hfraction⟩
  · exact hword 'n' ['a', 'n'] (by decide)
  · rintro (h | h)
    · exact hword 'i' ['n', 'f'] (by decide) h
    · exact hword 'i' ['n', 'f', 'i', 'n', 'i', 't', 'y'] (by decide) h

theorem read?_numeral {text : String} (h : IsNumeral text) : ∃ v, read? text = some v := by
  obtain ⟨digits, exponent, hread⟩ := read?_eq_ofDecimal h
  exact ⟨_, hread⟩

end Double

end ChainCompiler
