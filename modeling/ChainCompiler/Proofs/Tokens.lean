import ChainCompiler.Proofs.Numeral
import ChainCompiler.Token.Basic

/-! What may be expected of a token sequence before it is parsed: texts that agree with the kinds of their tokens, and
a single end of input, which comes last. -/

namespace ChainCompiler.Token

/-- The text of the token is one that its kind allows. -/
def Agrees (t : Token) : Prop :=
  match t.kind with
  | .keyword k => t.text = k.spelling
  | .identifier => ∀ k : Keyword, t.text ≠ k.spelling
  | .number => IsNumeral t.text
  | _ => True

/-- The sequence ends in its only end of input. -/
def EndsOnce (ts : List Token) : Prop :=
  ∃ init eof, ts = init ++ [eof] ∧ eof.kind = .eof ∧ ∀ t ∈ init, t.kind ≠ .eof

theorem EndsOnce.ne_eof {init : List Token} {eof : Token} (h : EndsOnce (init ++ [eof])) :
    ∀ t ∈ init, t.kind ≠ .eof := by
  obtain ⟨init', eof', heq, -, hinit⟩ := h
  obtain ⟨rfl, -⟩ := List.append_inj' heq rfl
  exact hinit

/-- Where an end of input stands in such a sequence, it is the last token. -/
theorem eq_of_only_eof {init ts us : List Token} {eof t : Token} (hinit : ∀ u ∈ init, u.kind ≠ .eof)
    (ht : t.kind = .eof) (h : init ++ [eof] = ts ++ t :: us) : init = ts ∧ eof = t ∧ us = [] := by
  rcases List.append_eq_append_iff.1 h with ⟨vs, rfl, hv⟩ | ⟨vs, rfl, hv⟩
  · cases vs with
    | nil =>
      obtain ⟨rfl, rfl⟩ : eof = t ∧ us = [] := by simpa [eq_comm] using hv
      simp
    | cons v vs => simp at hv
  · cases vs with
    | nil =>
      obtain ⟨rfl, rfl⟩ : t = eof ∧ us = [] := by simpa using hv
      simp
    | cons v vs =>
      obtain ⟨rfl, -⟩ : t = v ∧ _ := by simpa using hv
      exact absurd ht (hinit t (by simp))

end ChainCompiler.Token
