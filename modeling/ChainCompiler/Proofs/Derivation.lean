import ChainCompiler.Proofs.Grammar

/-! Induction over derivations. `Value` and `Block` are the least languages closed under `Layer` and under arms in
braces: a language that is closed under these rules has all their phrases. What a rule nests is shorter than the phrase
it is nested in, which is all that the rules below say. -/

namespace ChainCompiler.Grammar

variable {α : Type} {n : Nat}

/-- All phrases of `L` with fewer than `n` tokens are phrases of `M`. -/
def Within (n : Nat) (L M : Phrases α) : Prop := ∀ ⦃ts x⦄, L ts x → ts.length < n → M ts x

theorem Members.mono {L M : Phrases α} (h : Within n L M) : Within n (Members L) (Members M) := by
  intro ts xs hxs hn
  induction hxs with
  | nil => exact .nil
  | last hx hnl =>
    rw [List.length_append] at hn
    exact .last (h hx (by omega)) hnl
  | cons hx hnl hcomma hnl' _ ih =>
    simp only [List.length_append, List.length_cons] at hn
    exact .cons (h hx (by omega)) hnl hcomma hnl' (ih (by omega))

theorem Bracketed.mono {o c : Mark} {L M : Phrases α} (h : Within n L M) :
    Within (n + 1) (Bracketed o c L) (Bracketed o c M) := by
  intro ts x hx hn
  obtain ⟨ho, hnl, hx, hc⟩ := hx
  simp only [List.length_append, List.length_cons] at hn
  exact .mk ho hnl (h hx (by omega)) hc

section Values

variable {E F : Phrases Expr} (h : Within n E F)
include h

theorem NamedArgument.mono : Within n (NamedArgument E) (NamedArgument F) := by
  intro ts a ha hn
  obtain ⟨hname, hassign, he⟩ := ha
  simp only [List.length_cons] at hn
  exact .mk hname hassign (h he (by omega))

theorem Arguments.mono : Within n (Arguments E) (Arguments F) := by
  intro ts args hargs hn
  cases hargs with
  | named hargs hnames => exact .named (Members.mono (NamedArgument.mono h) hargs hn) hnames
  | sole he hnl =>
    rw [List.length_append] at hn
    exact .sole (h he (by omega)) hnl
  | soleComma he hnl hcomma hnl' =>
    simp only [List.length_append, List.length_cons] at hn
    exact .soleComma (h he (by omega)) hnl hcomma hnl'

theorem ObjectEntry.mono : Within n (ObjectEntry E) (ObjectEntry F) := by
  intro ts a ha hn
  obtain ⟨hkey, hsep, he⟩ := ha
  simp only [List.length_cons] at hn
  exact .mk hkey hsep (h he (by omega))

theorem Entries.mono : Within n (Entries E) (Entries F) := by
  intro ts entries hentries hn
  obtain ⟨hentries, hkeys⟩ := hentries
  exact .mk (Members.mono (ObjectEntry.mono h) hentries hn) hkeys

theorem Layer.mono : Within (n + 1) (Layer E) (Layer F) := by
  intro ts e he hn
  cases he with
  | atom ht => exact .atom ht
  | call ht hargs =>
    rw [List.length_cons] at hn
    exact .call ht (Bracketed.mono (Arguments.mono h) hargs (by omega))
  | list hitems => exact .list (Bracketed.mono (Members.mono h) hitems hn)
  | object hentries => exact .object (Bracketed.mono (Entries.mono h) hentries hn)

end Values

theorem Value.fold {E : Phrases Expr} (h : ∀ ts e, Layer E ts e → E ts e) {ts : List Token} {e : Expr}
    (he : Value ts e) : E ts e := by
  have hwithin : ∀ n, Within n Value E := by
    intro n
    induction n with
    | zero => intro ts e _ hn; omega
    | succ n ih =>
      intro ts e he hn
      obtain ⟨he⟩ := he
      exact h ts e (Layer.mono ih he hn)
  exact hwithin _ he (Nat.lt_succ_self _)

section Blocks

variable {B C : Phrases RouterBlock} (h : Within n B C)
include h

theorem Step.mono : Within n (Step B) (Step C) := by
  intro ts e he hn
  induction he with
  | value he => exact .value he
  | router he hb =>
    rw [List.length_append] at hn
    exact .router he (h hb (by omega))
  | bind _ hbind hname hargs ih =>
    rw [List.length_append] at hn
    exact .bind (ih (by omega)) hbind hname hargs

theorem MoreSteps.mono {bracketed : Bool} : Within n (MoreSteps B bracketed) (MoreSteps C bracketed) := by
  intro ts es hes hn
  induction hes with
  | nil => exact .nil
  | cons hnl hpipe hnl' he _ ih =>
    simp only [List.length_append, List.length_cons] at hn
    exact .cons hnl hpipe hnl' (Step.mono h he (by omega)) (ih (by omega))

theorem Pipeline.mono {bracketed : Bool} : Within n (Pipeline B bracketed) (Pipeline C bracketed) := by
  intro ts es hes hn
  obtain ⟨he, hes⟩ := hes
  rw [List.length_append] at hn
  exact .mk (Step.mono h he (by omega)) (MoreSteps.mono h hes (by omega))

theorem Arms.mono : Within n (Arms B) (Arms C) := by
  intro ts b hb hn
  induction hb with
  | nil => exact .nil
  | case ht he harrow haction hvs _ ih =>
    simp only [List.length_append, List.length_cons] at hn
    exact .case ht he harrow (Pipeline.mono h haction (by omega)) hvs (ih (by omega))
  | fallback ht harrow haction hvs _ ih =>
    simp only [List.length_append, List.length_cons] at hn
    exact .fallback ht harrow (Pipeline.mono h haction (by omega)) hvs (ih (by omega))

end Blocks

theorem Block.fold {B : Phrases RouterBlock} (h : ∀ ts b, Bracketed .lbrace .rbrace (Arms B) ts b → B ts b)
    {ts : List Token} {b : RouterBlock} (hb : Block ts b) : B ts b := by
  have hwithin : ∀ n, Within n Block B := by
    intro n
    induction n with
    | zero => intro ts b _ hn; omega
    | succ n ih =>
      intro ts b hb hn
      obtain ⟨hb⟩ := hb
      exact h ts b (Bracketed.mono (Arms.mono ih) hb hn)
  exact hwithin _ hb (Nat.lt_succ_self _)

end ChainCompiler.Grammar
