import ChainCompiler.Proofs.Commas.Spot

/-! Newlines in front of commas. They do not matter in parentheses, in square brackets and in object literals. The comma
after a schema field or after an arm of a router has to stand on the line of what it ends, and a sequence of tokens with
a newline there is no program. -/

namespace ChainCompiler

open Grammar (Newlines newlines_nil)

/-- The second sequence is the first one with newlines put in, directly before commas. -/
inductive Broken : List Token → List Token → Prop
  | nil : Broken [] []
  | cons {nl t ts us} :
      Newlines nl → (nl ≠ [] → t.kind = .mark .comma) → Broken ts us → Broken (t :: ts) (nl ++ t :: us)

namespace Broken

variable {t : Token} {ts us vs nl : List Token}

theorem eq_nil (h : Broken [] us) : us = [] := by
  cases h
  rfl

/-- What comes from two parts has two parts. -/
theorem split (h : Broken (ts ++ us) vs) : ∃ ts' us', vs = ts' ++ us' ∧ Broken ts ts' ∧ Broken us us' := by
  induction ts generalizing vs with
  | nil => exact ⟨[], vs, rfl, .nil, h⟩
  | cons t ts ih =>
    cases h with
    | cons hnl hcomma h =>
      obtain ⟨ts', us', rfl, hts, hus⟩ := ih h
      exact ⟨_, us', by simp, .cons hnl hcomma hts, hus⟩

/-- A token that is no comma stays where it is. -/
theorem keep (h : Broken (t :: ts) us) (ht : t.kind ≠ .mark .comma) : ∃ us', us = t :: us' ∧ Broken ts us' := by
  cases h with
  | @cons nl _ _ us' hnl hcomma h =>
    obtain rfl : nl = [] := by
      by_contra hne
      exact ht (hcomma hne)
    exact ⟨us', rfl, h⟩

theorem comma (h : Broken (t :: ts) us) : ∃ nl us', us = nl ++ t :: us' ∧ Newlines nl ∧ Broken ts us' := by
  cases h with
  | cons hnl _ h => exact ⟨_, _, rfl, hnl, h⟩

theorem newlines (h : Broken nl us) (hnl : Newlines nl) : us = nl := by
  induction nl generalizing us with
  | nil => exact h.eq_nil
  | cons t nl ih =>
    obtain ⟨us', rfl, hrest⟩ := h.keep (by rw [hnl t (by simp)]; rintro ⟨⟩)
    rw [ih hrest fun u hu => hnl u (by simp [hu])]

theorem plain (h : Broken (t :: ts) us) (ht : t.kind.isPlain = true) : ∃ us', us = t :: us' ∧ Broken ts us' := by
  refine h.keep fun hk => ?_
  rw [hk] at ht
  cases ht

/-- Where commas have to stay on their line, one that is admitted has not been moved. -/
theorem strict (h : Broken (t :: ts) us) (ht : t.kind = .mark .comma) {s : Spot} (hs : s.isLoose = false)
    (hadmitted : s.admitsAll us = true) : ∃ us', us = t :: us' ∧ Broken ts us' := by
  obtain ⟨nl, us', rfl, hnl, hrest⟩ := h.comma
  obtain rfl : nl = [] := by
    by_contra hne
    have hcomma := (Bool.and_eq_true_iff.1 (Spot.admitsAll_right hadmitted)).1
    have hloose := (Spot.Settles.newlines s hnl).isLoose
    simp [Spot.admits, ht, Spot.last_after_of_ne_nil hnl hne, hloose, hs] at hcomma
  exact ⟨us', rfl, hrest⟩

end Broken

namespace Grammar

open Spot

variable {α : Type}

/-- What comes of a phrase of `L` is a phrase of `M` for the same value, where an object may be opened and all tokens are
admitted. -/
def Keeps (L M : Phrases α) : Prop :=
  ∀ ⦃ts us x⦄, L ts x → Broken ts us → ∀ s : Spot, s.opensObject = true → s.admitsAll us = true → M us x

def KeepsIn (loose : Bool) (L M : Phrases α) : Prop :=
  ∀ ⦃ts us x⦄, L ts x → Broken ts us →
    ∀ s : Spot, s.opensObject = true → s.isLoose = loose → s.admitsAll us = true → M us x

theorem Keeps.inside {L M : Phrases α} (h : Keeps L M) {loose : Bool} : KeepsIn loose L M :=
  fun _ _ _ hx hus s hs _ => h hx hus s hs

theorem Members.keeps {L M : Phrases α} (h : Keeps L M) : Keeps (Members L) (Members M) := by
  intro ts us xs hxs hus s hs hadmitted
  induction hxs generalizing us s with
  | nil =>
    rw [hus.eq_nil]
    exact .nil
  | last hx hnl =>
    obtain ⟨vs, nl', rfl, hvs, hnl'⟩ := hus.split
    rw [hnl'.newlines hnl] at hadmitted ⊢
    exact .last (h hx hvs s hs (admitsAll_left hadmitted)) hnl
  | @cons ts nl comma nl' us x xs hx hnl hcomma hnl' _ ih =>
    obtain ⟨vs, rest₁, rfl, hvs, hrest₁⟩ := hus.split
    obtain ⟨nl₁, rest₂, rfl, hnl₁, hrest₂⟩ := hrest₁.split
    obtain ⟨nl₂, rest₃, rfl, hnl₂, hrest₃⟩ := hrest₂.comma
    obtain ⟨nl₃, rest₄, rfl, hnl₃, hrest₄⟩ := hrest₃.split
    rw [hnl₁.newlines hnl, hnl₃.newlines hnl', ← List.append_assoc nl] at hadmitted ⊢
    have hmembers : s.admitsAll ((vs ++ (nl ++ nl₂) ++ [comma] ++ nl') ++ rest₄) = true := by simpa using hadmitted
    refine .cons (h hx hvs s hs (admitsAll_left hadmitted)) (hnl.append hnl₂) hcomma hnl'
      (ih hrest₄ _ ?_ (admitsAll_right hmembers))
    rw [after_append, after_append]
    exact opensObject_after (by rw [after_cons, hcomma]; rfl) hnl'

theorem Bracketed.keeps {o c : Mark} {L M : Phrases α} {loose : Bool} {s : Spot}
    (hopen : (s.next (.mark o)).loose = loose :: s.loose) (hc : isClosing c = true) (h : KeepsIn loose L M)
    {ts us : List Token} {x : α} (hx : Bracketed o c L ts x) (hus : Broken ts us) (hadmitted : s.admitsAll us = true) :
    Bracketed o c M us x := by
  obtain ⟨hopening, hnl, hx, hclosing⟩ := hx
  have hne := ne_of_next hopen
  obtain ⟨rest₁, rfl, hrest₁⟩ := hus.keep (by simp [hopening, hne.1])
  obtain ⟨nl', rest₂, rfl, hnl', hrest₂⟩ := hrest₁.split
  obtain ⟨vs, rest₃, rfl, hvs, hrest₃⟩ := hrest₂.split
  obtain ⟨rest₄, rfl, hrest₄⟩ := hrest₃.keep (by rw [hclosing]; rintro ⟨⟩; cases hc)
  rw [hrest₄.eq_nil, hnl'.newlines hnl] at hadmitted ⊢
  have hinner := admitsAll_left (admitsAll_right (admitsAll_tail hadmitted))
  rw [hopening] at hinner
  refine .mk hopening hnl (h hx hvs _ (opensObject_after ?_ hnl) ?_ hinner) hclosing
  · simp [opensObject, next, hne.2]
  · rw [(Settles.newlines _ hnl).isLoose, isLoose, hopen]
    rfl

section Values

variable {E F : Phrases Expr} (h : Keeps E F)
include h

theorem NamedArgument.keeps : Keeps (NamedArgument E) (NamedArgument F) := by
  intro ts us a ha hus s _ hadmitted
  obtain ⟨hname, hassign, he⟩ := ha
  obtain ⟨rest₁, rfl, hrest₁⟩ := hus.plain hname.isPlain
  obtain ⟨rest₂, rfl, hrest₂⟩ := hrest₁.plain (by rw [hassign]; rfl)
  exact .mk hname hassign (h he hrest₂ _ (by rw [hassign]; rfl) (admitsAll_tail (admitsAll_tail hadmitted)))

theorem ObjectEntry.keeps : Keeps (ObjectEntry E) (ObjectEntry F) := by
  intro ts us a ha hus s _ hadmitted
  obtain ⟨hkey, hsep, he⟩ := ha
  obtain ⟨rest₁, rfl, hrest₁⟩ := hus.plain hkey.isPlain
  obtain ⟨rest₂, rfl, hrest₂⟩ := hrest₁.plain (by rcases hsep with hsep | hsep <;> rw [hsep] <;> rfl)
  refine .mk hkey hsep (h he hrest₂ _ ?_ (admitsAll_tail (admitsAll_tail hadmitted)))
  rcases hsep with hsep | hsep <;> rw [hsep] <;> rfl

theorem Arguments.keeps : Keeps (Arguments E) (Arguments F) := by
  intro ts us args hargs hus s hs hadmitted
  cases hargs with
  | named hargs hnames => exact .named (Members.keeps (NamedArgument.keeps h) hargs hus s hs hadmitted) hnames
  | sole he hnl =>
    obtain ⟨vs, nl', rfl, hvs, hnl'⟩ := hus.split
    rw [hnl'.newlines hnl] at hadmitted ⊢
    exact .sole (h he hvs s hs (admitsAll_left hadmitted)) hnl
  | @soleComma ts nl comma nl' e he hnl hcomma hnl' =>
    obtain ⟨vs, rest₁, rfl, hvs, hrest₁⟩ := hus.split
    obtain ⟨nl₁, rest₂, rfl, hnl₁, hrest₂⟩ := hrest₁.split
    obtain ⟨nl₂, rest₃, rfl, hnl₂, hrest₃⟩ := hrest₂.comma
    rw [hnl₁.newlines hnl, hrest₃.newlines hnl', ← List.append_assoc nl] at hadmitted ⊢
    exact .soleComma (h he hvs s hs (admitsAll_left hadmitted)) (hnl.append hnl₂) hcomma hnl'

theorem Entries.keeps : Keeps (Entries E) (Entries F) := by
  intro ts us entries hentries hus s hs hadmitted
  obtain ⟨hentries, hkeys⟩ := hentries
  exact .mk (Members.keeps (ObjectEntry.keeps h) hentries hus s hs hadmitted) hkeys

theorem Layer.keeps : Keeps (Layer E) (Layer F) := by
  intro ts us e he hus s hs hadmitted
  cases he with
  | atom ht =>
    obtain ⟨rest, rfl, hrest⟩ := hus.plain (isPlain_of_atom ht)
    rw [hrest.eq_nil]
    exact .atom ht
  | call ht hargs =>
    obtain ⟨rest, rfl, hrest⟩ := hus.plain ht.isName.isPlain
    exact .call ht (Bracketed.keeps rfl rfl (Arguments.keeps h).inside hargs hrest (admitsAll_tail hadmitted))
  | list hitems => exact .list (Bracketed.keeps rfl rfl (Members.keeps h).inside hitems hus hadmitted)
  | object hentries =>
    have hopen : (s.next (.mark .lbrace)).loose = true :: s.loose := by rw [loose_next_lbrace, hs]
    exact .object (Bracketed.keeps hopen rfl (Entries.keeps h).inside hentries hus hadmitted)

end Values

theorem Value.keeps : Keeps Value Value :=
  fun _ _ _ he => Value.fold
    (E := fun ts e => ∀ us, Broken ts us → ∀ s : Spot, s.opensObject = true → s.admitsAll us = true → Value us e)
    (fun _ _ hlayer _ hus s hs hadmitted =>
      .of (Layer.keeps (fun _ us _ he => he us) hlayer hus s hs hadmitted)) he _

theorem args_keeps {ts us : List Token} {args : List Argument} (h : Args ts args) (hus : Broken ts us) {s : Spot}
    (hadmitted : s.admitsAll us = true) : Args us args :=
  Bracketed.keeps rfl rfl (Arguments.keeps Value.keeps).inside h hus hadmitted

theorem ArmEnd.keeps {ts us : List Token} (h : ArmEnd ts) (hus : Broken ts us) {s : Spot} (hs : s.isLoose = false)
    (hadmitted : s.admitsAll us = true) : ArmEnd us := by
  cases h with
  | plain hnl =>
    rw [hus.newlines hnl]
    exact .plain hnl
  | comma ht hnl =>
    obtain ⟨rest, rfl, hrest⟩ := hus.strict ht hs hadmitted
    rw [hrest.newlines hnl]
    exact .comma ht hnl

def KeepsBlock (B C : Phrases RouterBlock) : Prop :=
  ∀ ⦃ts us b⦄, B ts b → Broken ts us → ∀ s : Spot, s.last = .mark .rparen → s.admitsAll us = true → C us b

section Blocks

variable {B C : Phrases RouterBlock} (h : KeepsBlock B C)
include h

theorem Step.keeps : Keeps (Step B) (Step C) := by
  intro ts us e he hus s hs hadmitted
  induction he generalizing us with
  | value he => exact .value (Value.keeps he hus s hs hadmitted)
  | router he hb =>
    obtain ⟨vs, ws, rfl, hvs, hws⟩ := hus.split
    have hcall := Value.keeps he hvs s hs (admitsAll_left hadmitted)
    exact .router hcall (h hb hws _ (last_of_call hcall s) (admitsAll_right hadmitted))
  | bind _ hbind hname hargs ih =>
    obtain ⟨vs, rest₁, rfl, hvs, hrest₁⟩ := hus.split
    obtain ⟨rest₂, rfl, hrest₂⟩ := hrest₁.plain (by rw [hbind]; rfl)
    obtain ⟨rest₃, rfl, hrest₃⟩ := hrest₂.plain (by rw [hname]; rfl)
    have hrest := admitsAll_tail (admitsAll_tail (admitsAll_right hadmitted))
    exact .bind (ih hvs (admitsAll_left hadmitted)) hbind hname (args_keeps hargs hrest₃ hrest)

theorem MoreSteps.keeps {bracketed : Bool} {ts us : List Token} {es : List Expr} (hes : MoreSteps B bracketed ts es)
    (hus : Broken ts us) {s : Spot} (hadmitted : s.admitsAll us = true) : MoreSteps C bracketed us es := by
  induction hes generalizing us s with
  | nil =>
    rw [hus.eq_nil]
    exact .nil
  | @cons nl pipe nl' ts us e es hnl hpipe hnl' he _ ih =>
    obtain ⟨nl₁, rest₁, rfl, hnl₁, hrest₁⟩ := hus.split
    obtain ⟨rest₂, rfl, hrest₂⟩ := hrest₁.plain (by rw [hpipe]; rfl)
    obtain ⟨nl₂, rest₃, rfl, hnl₂, hrest₃⟩ := hrest₂.split
    obtain ⟨vs, ws, rfl, hvs, hws⟩ := hrest₃.split
    rw [hnl₁.newlines hnl.1, hnl₂.newlines hnl'.1] at hadmitted ⊢
    have hrest := admitsAll_right (admitsAll_tail (admitsAll_right hadmitted))
    refine .cons hnl hpipe hnl' (Step.keeps h he hvs _ ?_ (admitsAll_left hrest)) (ih hws (admitsAll_right hrest))
    exact opensObject_after (by rw [hpipe]; rfl) hnl'.1

theorem Pipeline.keeps {bracketed : Bool} : Keeps (Pipeline B bracketed) (Pipeline C bracketed) := by
  intro ts us es hes hus s hs hadmitted
  obtain ⟨he, hes⟩ := hes
  obtain ⟨vs, ws, rfl, hvs, hws⟩ := hus.split
  exact .mk (Step.keeps h he hvs s hs (admitsAll_left hadmitted)) (MoreSteps.keeps h hes hws (admitsAll_right hadmitted))

/-- The action of an arm and what ends the arm, with the rest of the arms left to be looked at. -/
theorem Pipeline.keeps_armEnd (hC : ClosingBlock C) {us us' vs vs' ws : List Token} {action : List Expr}
    (haction : Pipeline B true us action) (hus : Broken us us') (hend : ArmEnd vs) (hvs : Broken vs vs') {s : Spot}
    (hs : s.opensObject = true) (hloose : s.isLoose = false) (hadmitted : s.admitsAll (us' ++ (vs' ++ ws)) = true) :
    Pipeline C true us' action ∧ ArmEnd vs' ∧ ∃ s' : Spot, s'.isLoose = false ∧ s'.admitsAll ws = true := by
  have haction' := Pipeline.keeps h haction hus s hs (admitsAll_left hadmitted)
  have hcloses := Pipeline.closing hC haction' s hs
  have hend' := hend.keeps hvs (by rw [hcloses.isLoose, hloose]) (admitsAll_left (admitsAll_right hadmitted))
  refine ⟨haction', hend', _, ?_, admitsAll_right (admitsAll_right hadmitted)⟩
  rw [(hend'.settles hcloses.last).isLoose, hcloses.isLoose, hloose]

/-- In a block, all that is admitted are arms with their commas on their lines. -/
theorem Arms.keeps (hC : ClosingBlock C) {ts us : List Token} {b : RouterBlock} (hb : Arms B ts b) (hus : Broken ts us)
    {s : Spot} (hs : s.isLoose = false) (hadmitted : s.admitsAll us = true) : Arms C us b := by
  induction hb generalizing us s with
  | nil =>
    rw [hus.eq_nil]
    exact .nil
  | @case t ts arrow us vs ws condition action cases fallback ht he harrow haction hend _ ih =>
    obtain ⟨rest₁, rfl, hrest₁⟩ := hus.plain (by rw [ht]; rfl)
    obtain ⟨ts', rest₂, rfl, hts, hrest₂⟩ := hrest₁.split
    obtain ⟨rest₃, rfl, hrest₃⟩ := hrest₂.plain (by rw [harrow]; rfl)
    obtain ⟨us', rest₄, rfl, hus', hrest₄⟩ := hrest₃.split
    obtain ⟨vs', ws', rfl, hvs, hws⟩ := hrest₄.split
    have hopens : (s.next t.kind).opensObject = true := by rw [ht]; rfl
    have hcondition := Value.keeps he hts _ hopens (admitsAll_left (admitsAll_tail hadmitted))
    have hfront : s.Settles ([t] ++ ts' ++ [arrow]) :=
      ((Settles.plain s (by rw [ht]; rfl)).append (Value.closing hcondition _ hopens).toSettles).append
        (.plain _ (by rw [harrow]; rfl))
    have hrest : (s.after ([t] ++ ts' ++ [arrow])).admitsAll (us' ++ (vs' ++ ws')) = true :=
      admitsAll_right (by simpa using hadmitted)
    obtain ⟨haction', hend', s', hs', hws'⟩ := Pipeline.keeps_armEnd h hC haction hus' hend hvs
      (by rw [after_append, after_cons, harrow]; rfl) (by rw [hfront.isLoose, hs]) hrest
    exact .case ht hcondition harrow haction' hend' (ih hws hs' hws')
  | @fallback t arrow us vs ws action cases ht harrow haction hend _ ih =>
    obtain ⟨rest₁, rfl, hrest₁⟩ := hus.plain (by rw [ht]; rfl)
    obtain ⟨rest₂, rfl, hrest₂⟩ := hrest₁.plain (by rw [harrow]; rfl)
    obtain ⟨us', rest₃, rfl, hus', hrest₃⟩ := hrest₂.split
    obtain ⟨vs', ws', rfl, hvs, hws⟩ := hrest₃.split
    have hfront : s.Settles [t, arrow] := .cons (.plain s (by rw [ht]; rfl)) (.plain _ (by rw [harrow]; rfl))
    obtain ⟨haction', hend', s', hs', hws'⟩ := Pipeline.keeps_armEnd h hC haction hus' hend hvs
      (s := s.after [t, arrow]) (by rw [after_cons, after_cons, harrow]; rfl) (by rw [hfront.isLoose, hs])
      (admitsAll_tail (admitsAll_tail hadmitted))
    exact .fallback ht harrow haction' hend' (ih hws hs' hws')

theorem Bracketed.keeps_arms (hC : ClosingBlock C) {ts us : List Token} {b : RouterBlock}
    (hb : Bracketed .lbrace .rbrace (Arms B) ts b) (hus : Broken ts us) {s : Spot} (hs : s.last = .mark .rparen)
    (hadmitted : s.admitsAll us = true) : Bracketed .lbrace .rbrace (Arms C) us b := by
  have hopen : (s.next (.mark .lbrace)).loose = false :: s.loose := by
    rw [loose_next_lbrace, opensObject, hs]
    rfl
  have harms : KeepsIn false (Arms B) (Arms C) := fun _ _ _ hb hus _ _ hloose => Arms.keeps h hC hb hus hloose
  exact Bracketed.keeps hopen rfl harms hb hus hadmitted

end Blocks

theorem Block.keeps : KeepsBlock Block Block :=
  fun _ _ _ hb => Block.fold
    (B := fun ts b => ∀ us, Broken ts us → ∀ s : Spot, s.last = .mark .rparen → s.admitsAll us = true → Block us b)
    (fun _ _ harms _ hus _ hs hadmitted =>
      .of (Bracketed.keeps_arms (fun _ us _ hb => hb us) Block.closing harms hus hs hadmitted)) hb _

theorem FieldEnd.keeps {ts us : List Token} (h : FieldEnd ts) (hus : Broken ts us) {s : Spot} (hs : s.isLoose = false)
    (hadmitted : s.admitsAll us = true) : FieldEnd us := by
  cases h with
  | nil =>
    rw [hus.eq_nil]
    exact .nil
  | cons ht hnl =>
    rcases ht with ht | ht
    · obtain ⟨rest, rfl, hrest⟩ := hus.strict ht hs hadmitted
      rw [hrest.newlines hnl]
      exact .cons (.inl ht) hnl
    · rw [hus.newlines (List.forall_mem_cons.2 ⟨ht, hnl⟩)]
      exact .cons (.inr ht) hnl

theorem Fields.keeps {ts us : List Token} {fs : List (String × String)} (h : Fields ts fs) (hus : Broken ts us) {s : Spot}
    (hs : s.isLoose = false) (hadmitted : s.admitsAll us = true) : Fields us fs := by
  induction h generalizing us s with
  | nil =>
    rw [hus.eq_nil]
    exact .nil
  | @cons name colon type us vs fs hname hcolon htype hend _ ih =>
    obtain ⟨rest₁, rfl, hrest₁⟩ := hus.plain (by rw [hname]; rfl)
    obtain ⟨rest₂, rfl, hrest₂⟩ := hrest₁.plain (by rw [hcolon]; rfl)
    obtain ⟨rest₃, rfl, hrest₃⟩ := hrest₂.plain (by rw [htype]; rfl)
    obtain ⟨us', vs', rfl, hus', hvs⟩ := hrest₃.split
    have hfront : s.Settles [name, colon, type] :=
      .cons (.plain s (by rw [hname]; rfl)) (.cons (.plain _ (by rw [hcolon]; rfl)) (.plain _ (by rw [htype]; rfl)))
    have hrest : (s.after [name, colon, type]).admitsAll (us' ++ vs') = true :=
      admitsAll_tail (admitsAll_tail (admitsAll_tail hadmitted))
    have hend' := hend.keeps hus' (by rw [hfront.isLoose, hs]) (admitsAll_left hrest)
    have hlast : (s.after [name, colon, type]).last ≠ .newline := by
      rw [after_cons, after_cons, after_cons, htype]
      rintro ⟨⟩
    exact .cons hname hcolon htype hend'
      (ih hvs (by rw [(hend'.settles hlast).isLoose, hfront.isLoose, hs]) (admitsAll_right hrest))

theorem ContextBody.keeps {ts us : List Token} {x : List Expr × Option Call} (h : ContextBody ts x) (hus : Broken ts us)
    {s : Spot} (hadmitted : s.admitsAll us = true) : ContextBody us x := by
  cases h with
  | @mk memory ts args o nl us nl' c steps hmemory hargs ho hnl hsteps hnl' hc =>
    obtain ⟨rest₁, rfl, hrest₁⟩ := hus.plain (by rw [hmemory]; rfl)
    obtain ⟨ts', rest₂, rfl, hts, hrest₂⟩ := hrest₁.split
    obtain ⟨rest₃, rfl, hrest₃⟩ := hrest₂.keep (by rw [ho]; rintro ⟨⟩)
    obtain ⟨nl₁, rest₄, rfl, hnl₁, hrest₄⟩ := hrest₃.split
    obtain ⟨us', rest₅, rfl, hus', hrest₅⟩ := hrest₄.split
    obtain ⟨nl₂, rest₆, rfl, hnl₂, hrest₆⟩ := hrest₅.split
    obtain ⟨rest₇, rfl, hrest₇⟩ := hrest₆.keep (by rw [hc]; rintro ⟨⟩)
    rw [hnl₁.newlines hnl, hnl₂.newlines hnl', hrest₇.eq_nil] at hadmitted ⊢
    have hcall := args_keeps hargs hts (admitsAll_left (admitsAll_tail hadmitted))
    have hbody := admitsAll_right (admitsAll_tail (admitsAll_right (admitsAll_tail hadmitted)))
    refine .mk hmemory hcall ho hnl (Pipeline.keeps Block.keeps hsteps hus' _ ?_ (admitsAll_left hbody)) hnl' hc
    exact opensObject_after (by rw [ho]; rfl) hnl

theorem Sentence.keeps {ts us : List Token} {st : Statement} (h : Sentence ts st) (hus : Broken ts us) {s : Spot}
    (hadmitted : s.admitsAll us = true) : Sentence us st := by
  cases h with
  | definition ht hname hassign hvalue =>
    obtain ⟨rest₁, rfl, hrest₁⟩ := hus.plain (by rw [ht]; rfl)
    obtain ⟨rest₂, rfl, hrest₂⟩ := hrest₁.plain (by rw [hname]; rfl)
    obtain ⟨rest₃, rfl, hrest₃⟩ := hrest₂.plain (by rw [hassign]; rfl)
    exact .definition ht hname hassign (Step.keeps Block.keeps hvalue hrest₃ _ (by rw [hassign]; rfl)
      (admitsAll_tail (admitsAll_tail (admitsAll_tail hadmitted))))
  | chain ht hname hassign hsteps =>
    obtain ⟨rest₁, rfl, hrest₁⟩ := hus.plain (by rw [ht]; rfl)
    obtain ⟨rest₂, rfl, hrest₂⟩ := hrest₁.plain (by rw [hname]; rfl)
    obtain ⟨rest₃, rfl, hrest₃⟩ := hrest₂.plain (by rw [hassign]; rfl)
    exact .chain ht hname hassign (Pipeline.keeps Block.keeps hsteps hrest₃ _ (by rw [hassign]; rfl)
      (admitsAll_tail (admitsAll_tail (admitsAll_tail hadmitted))))
  | chainWith ht hname hassign hw hbody =>
    obtain ⟨rest₁, rfl, hrest₁⟩ := hus.plain (by rw [ht]; rfl)
    obtain ⟨rest₂, rfl, hrest₂⟩ := hrest₁.plain (by rw [hname]; rfl)
    obtain ⟨rest₃, rfl, hrest₃⟩ := hrest₂.plain (by rw [hassign]; rfl)
    obtain ⟨rest₄, rfl, hrest₄⟩ := hrest₃.plain (by rw [hw]; rfl)
    exact .chainWith ht hname hassign hw (hbody.keeps hrest₄
      (admitsAll_tail (admitsAll_tail (admitsAll_tail (admitsAll_tail hadmitted)))))
  | schema ht hname hfs =>
    obtain ⟨rest₁, rfl, hrest₁⟩ := hus.plain (by rw [ht]; rfl)
    obtain ⟨rest₂, rfl, hrest₂⟩ := hrest₁.plain (by rw [hname]; rfl)
    have hfields : KeepsIn false Fields Fields := fun _ _ _ hfs hus _ _ hloose => hfs.keeps hus hloose
    exact .schema ht hname
      (Bracketed.keeps (by rw [hname]; rfl) rfl hfields hfs hrest₂ (admitsAll_tail (admitsAll_tail hadmitted)))

/-- A program stays what it is when newlines are put in before commas that admit them. -/
theorem Sentences.keeps {ts us : List Token} {p : Program} (h : Sentences ts p) (hus : Broken ts us) {s : Spot}
    (hadmitted : s.admitsAll us = true) : Sentences us p := by
  induction h generalizing us s with
  | nil =>
    rw [hus.eq_nil]
    exact .nil
  | newline ht _ ih =>
    obtain ⟨rest, rfl, hrest⟩ := hus.keep (by rw [ht]; rintro ⟨⟩)
    exact .newline ht (ih hrest (admitsAll_tail hadmitted))
  | cons hs _ ih =>
    obtain ⟨vs, ws, rfl, hvs, hws⟩ := hus.split
    exact .cons (hs.keeps hvs (admitsAll_left hadmitted)) (ih hws (admitsAll_right hadmitted))

end Grammar

theorem Broken.upToEnd {ts us : List Token} (h : Broken ts us) : Broken (Token.upToEnd ts) (Token.upToEnd us) := by
  induction h with
  | nil => exact .nil
  | @cons nl t ts us hnl hcomma _ ih =>
    have hfront : ∀ u ∈ nl, (u.kind != .eof) = true := fun u hu => by simp [hnl u hu]
    rw [Token.upToEnd, Token.upToEnd, List.takeWhile_append_of_pos hfront]
    by_cases ht : t.kind = .eof
    · obtain rfl : nl = [] := by
        by_contra hne
        rw [hcomma hne] at ht
        cases ht
      simpa [ht] using Broken.nil
    · rw [List.takeWhile_cons_of_pos (by simpa using ht), List.takeWhile_cons_of_pos (by simpa using ht)]
      exact .cons hnl hcomma ih

namespace Program

/-- Newlines directly before commas leave a program what it is, as long as they are all in parentheses, in square brackets
or in object literals. A newline before the comma after a schema field or after an arm of a router is an error. -/
theorem ofTokens_of_broken {ts us : List Token} {p : Program} (hts : ofTokens ts = .ok p) (h : Broken ts us) :
    if Spot.start.admitsAll (Token.upToEnd us) then ofTokens us = .ok p else ∃ e, ofTokens us = .error e := by
  have hsentences := ofTokens_eq_ok_iff_sentences.1 hts
  split
  · next hadmitted => exact ofTokens_eq_ok_iff_sentences.2 (hsentences.keeps h.upToEnd hadmitted)
  · next hrefused =>
    cases hus : ofTokens us with
    | error e => exact ⟨e, rfl⟩
    | ok q => exact absurd ((ofTokens_eq_ok_iff_sentences.1 hus).settles Spot.start).admitted hrefused

def breakCommas (nl : Token) (ts : List Token) : List Token :=
  ts.flatMap fun t => if t.kind = .mark .comma then [nl, t] else [t]

theorem broken_breakCommas {nl : Token} (hnl : nl.kind = .newline) (ts : List Token) : Broken ts (breakCommas nl ts) := by
  induction ts with
  | nil => exact .nil
  | cons t ts ih =>
    rw [breakCommas, List.flatMap_cons]
    split
    · next ht => exact @Broken.cons [nl] t ts _ (by simpa [Newlines] using hnl) (fun _ => ht) ih
    · exact @Broken.cons [] t ts _ newlines_nil (absurd rfl) ih

def listTokens : List Token :=
  [⟨.keyword .defKw, "def", ⟨1, 1⟩⟩, ⟨.identifier, "x", ⟨1, 5⟩⟩, ⟨.mark .assign, "=", ⟨1, 7⟩⟩,
    ⟨.mark .lbracket, "[", ⟨1, 9⟩⟩, ⟨.identifier, "a", ⟨1, 10⟩⟩, ⟨.mark .comma, ",", ⟨1, 11⟩⟩,
    ⟨.identifier, "b", ⟨1, 13⟩⟩, ⟨.mark .rbracket, "]", ⟨1, 14⟩⟩, ⟨.eof, "", ⟨1, 15⟩⟩]

def schemaTokens : List Token :=
  [⟨.keyword .schemaKw, "schema", ⟨1, 1⟩⟩, ⟨.identifier, "S", ⟨1, 8⟩⟩, ⟨.mark .lbrace, "\x7b", ⟨1, 10⟩⟩,
    ⟨.identifier, "a", ⟨1, 12⟩⟩, ⟨.mark .colon, ":", ⟨1, 13⟩⟩, ⟨.identifier, "b", ⟨1, 15⟩⟩,
    ⟨.mark .comma, ",", ⟨1, 16⟩⟩, ⟨.identifier, "c", ⟨1, 18⟩⟩, ⟨.mark .colon, ":", ⟨1, 19⟩⟩,
    ⟨.identifier, "d", ⟨1, 21⟩⟩, ⟨.mark .rbrace, "\x7d", ⟨1, 23⟩⟩, ⟨.eof, "", ⟨1, 24⟩⟩]

theorem ofTokens_of_broken_listTokens :
    ofTokens (breakCommas ⟨.newline, "\n", ⟨7, 7⟩⟩ listTokens) =
        .ok [⟨"x", 1, .definition (.list [.identifier "a", .identifier "b"])⟩] ∧
      ∃ e, ofTokens (breakCommas ⟨.newline, "\n", ⟨7, 7⟩⟩ schemaTokens) = .error e := by
  have hlist : ofTokens listTokens = .ok [⟨"x", 1, .definition (.list [.identifier "a", .identifier "b"])⟩] := rfl
  have hschema : ofTokens schemaTokens = .ok [⟨"S", 1, .schema [("a", "b"), ("c", "d")]⟩] := rfl
  exact ⟨ofTokens_of_broken hlist (@broken_breakCommas ⟨.newline, "\n", ⟨7, 7⟩⟩ rfl _),
    ofTokens_of_broken hschema (@broken_breakCommas ⟨.newline, "\n", ⟨7, 7⟩⟩ rfl _)⟩

/-- A comma that starts a line of a schema or of a router block is refused. -/
theorem ofTokens_breakCommas :
    (Broken schemaTokens (breakCommas ⟨.newline, "\n", ⟨7, 7⟩⟩ schemaTokens) ∧
      ofTokens schemaTokens = .ok [⟨"S", 1, .schema [("a", "b"), ("c", "d")]⟩] ∧
      ofTokens (breakCommas ⟨.newline, "\n", ⟨7, 7⟩⟩ schemaTokens) =
        .error (.unexpected .fieldName ⟨.mark .comma, ",", ⟨1, 16⟩⟩)) ∧
    Broken routerTokens (breakCommas ⟨.newline, "\n", ⟨7, 7⟩⟩ routerTokens) ∧
      ofTokens routerTokens = .ok [⟨"r", 1, .definition (.call
        ⟨"Router", [⟨some "k", .list [.identifier "y"]⟩], some ⟨[], some [.identifier "x"]⟩⟩)⟩] ∧
      ofTokens (breakCommas ⟨.newline, "\n", ⟨7, 7⟩⟩ routerTokens) =
        .error (.unexpected .arm ⟨.mark .comma, ",", ⟨1, 39⟩⟩) :=
  ⟨⟨broken_breakCommas rfl _, rfl, rfl⟩, broken_breakCommas rfl _, rfl, rfl⟩

end Program

end ChainCompiler
