import ChainCompiler.Proofs.Soundness.Expr
import ChainCompiler.Proofs.Spelling

/-! Beginnings that can be completed. Some tokens are viable for a language when there is a text whose tokens, put after
them, make a phrase of that language. Words, names and marks are enough for all completions. -/

namespace ChainCompiler

/-- A text can be found whose tokens complete `ts` to a phrase of `L`. -/
def Viable (L : List Token → Prop) (ts : List Token) : Prop := ∃ w, Spells Anything w fun us => L (ts ++ us)

def isSpellable : Kind → Bool
  | .mark _ | .keyword _ | .identifier => true
  | _ => false

theorem first?_mark (m : Mark) (rest : List Char) :
    Rule.first? (m.spelling.toList ++ ' ' :: rest) = some (.mark m, m.spelling.toList.length) := by
  cases m <;> rfl

/-- A blank after a text is as good as what the text must be followed by. -/
theorem Spells.before_blank {F : List Char → Prop} {cs : List Char} {L : List Token → Prop} (h : Spells F cs L)
    (hF : ∀ rest, F (' ' :: rest)) : Spells Anything (cs ++ [' ']) L := by
  refine (h.append (Spells.nil (F := Anything)).blank fun rest _ => hF rest).imp ?_
  rintro _ ⟨us, vs, rfl, hus, rfl⟩
  rwa [List.append_nil]

theorem ends_blank (rest : List Char) : Ends (' ' :: rest) := ends_cons (by decide) rest

/-- Each of these kinds has a text that spells a token of it, whatever comes after. -/
theorem spells_kind {k : Kind} (h : isSpellable k = true) : ∃ w, Spells Anything w (IsToken k) := by
  cases k with
  | mark m =>
    have hne : m.spelling.toList ≠ [] := by cases m <;> decide
    have hfirst : ∀ rest, rest.head? = some ' ' →
        Rule.first? (m.spelling.toList ++ rest) = some (.mark m, m.spelling.toList.length) := by
      intro rest hrest
      obtain ⟨more, rfl⟩ := List.head?_eq_some_iff.1 hrest
      exact first?_mark m more
    refine ⟨_, Spells.before_blank ((Spells.lexeme hne hfirst).imp ?_) fun _ => rfl⟩
    rintro _ ⟨pos, rfl⟩
    exact ⟨_, rfl, rfl⟩
  | keyword k =>
    have hne : k.spelling.toList ≠ [] := by cases k <;> decide
    refine ⟨_, Spells.before_blank ((Spells.lexeme hne fun _ => first?_keyword k).imp ?_) ends_blank⟩
    rintro _ ⟨pos, rfl⟩
    exact ⟨_, emit_keyword k pos, rfl⟩
  | identifier =>
    have hfree : IsFreeName "x" := ⟨by decide, by intro k; cases k <;> decide⟩
    refine ⟨_, Spells.before_blank ((spells_name hfree).imp ?_) ends_blank⟩
    rintro _ ⟨t, rfl, ht, -⟩
    exact ⟨t, rfl, ht⟩
  | _ => cases h

theorem spells_kinds {ks : List Kind} (h : ks.all isSpellable = true) :
    ∃ w, Spells Anything w fun us => us.map Token.kind = ks := by
  induction ks with
  | nil => exact ⟨[], Spells.nil.imp fun us hus => by rw [hus]; rfl⟩
  | cons k ks ih =>
    rw [List.all_cons, Bool.and_eq_true] at h
    obtain ⟨w, hw⟩ := spells_kind h.1
    obtain ⟨w', hw'⟩ := ih h.2
    refine ⟨w ++ w', (hw.append hw' fun _ _ => trivial).imp ?_⟩
    rintro _ ⟨_, vs, rfl, ⟨t, rfl, ht⟩, hvs⟩
    rw [List.singleton_append, List.map_cons, ht, hvs]

namespace Viable

variable {L M : List Token → Prop} {ts : List Token}

/-- A phrase is complete. -/
theorem of (h : L ts) : Viable L ts := by
  refine ⟨[], Spells.nil.imp ?_⟩
  rintro _ rfl
  rwa [List.append_nil]

/-- Tokens of the given kinds complete the phrase. -/
theorem complete (ks : List Kind) (hks : ks.all isSpellable = true)
    (h : ∀ us, us.map Token.kind = ks → L (ts ++ us)) : Viable L ts := by
  obtain ⟨w, hw⟩ := spells_kinds hks
  exact ⟨w, hw.imp h⟩

/-- What completes a part completes the whole, when nothing is missing after that part. -/
theorem imp (h : Viable L ts) (front : List Token) (hLM : ∀ us, L us → M (front ++ us)) : Viable M (front ++ ts) := by
  obtain ⟨w, hw⟩ := h
  refine ⟨w, hw.imp fun us hus => ?_⟩
  rw [List.append_assoc]
  exact hLM _ hus

/-- The same, when tokens of the given kinds are missing after that part. -/
theorem extend (h : Viable L ts) (front : List Token) (ks : List Kind) (hks : ks.all isSpellable = true)
    (hLM : ∀ us vs, L us → vs.map Token.kind = ks → M (front ++ (us ++ vs))) : Viable M (front ++ ts) := by
  obtain ⟨w, hw⟩ := h
  obtain ⟨w', hw'⟩ := spells_kinds hks
  refine ⟨w ++ w', (hw.append hw' fun _ _ => trivial).imp ?_⟩
  rintro _ ⟨us, vs, rfl, hus, hvs⟩
  have hphrase := hLM _ _ hus hvs
  rwa [List.append_assoc, ← List.append_assoc] at hphrase ⊢

end Viable

end ChainCompiler
