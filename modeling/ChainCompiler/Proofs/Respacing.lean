import ChainCompiler.Proofs.Derivation
import ChainCompiler.Proofs.Indexed.Safety
import ChainCompiler.Proofs.Recognition
import Mathlib.Data.List.TakeWhile

/-! Newlines that do not matter. A program stays what it is when newlines are left out anywhere, and when some are put
in after an opening bracket or a comma or before a closing bracket. Both are said by one relation between token
sequences, which every rule of the grammar respects. -/

namespace ChainCompiler

open Grammar (Newlines newlines_nil)

namespace Kind

def roomAfter : Kind → Bool
  | .mark .lparen => true
  | .mark .lbracket => true
  | .mark .lbrace => true
  | .mark .comma => true
  | _ => false

def roomBefore : Kind → Bool
  | .mark .rparen => true
  | .mark .rbracket => true
  | .mark .rbrace => true
  | _ => false

/-- Neither a newline nor with room for any. -/
def isPlain (k : Kind) : Bool := k != .newline && !k.roomBefore && !k.roomAfter

theorem roomBefore_of_roomAfter {k : Kind} (h : k.roomAfter = true) : k.roomBefore = false := by
  unfold roomAfter at h
  split at h
  · rfl
  · rfl
  · rfl
  · rfl
  · cases h

theorem roomAfter_of_roomBefore {k : Kind} (h : k.roomBefore = true) : k.roomAfter = false := by
  rw [Bool.eq_false_iff]
  intro hafter
  rw [roomBefore_of_roomAfter hafter] at h
  cases h

theorem ne_newline_of_room {k : Kind} (h : k.roomAfter = true ∨ k.roomBefore = true) : k ≠ .newline := by
  rintro rfl
  cases h <;> contradiction

end Kind

/-- A token with newlines around it, where there is room for them. -/
inductive Padded (t : Token) : List Token → Prop
  | mk {before after} :
      Newlines before → (before ≠ [] → t.kind.roomBefore = true) →
      Newlines after → (after ≠ [] → t.kind.roomAfter = true) → Padded t (before ++ t :: after)

/-- The second sequence is the first one with newlines put in, directly after opening brackets and commas and directly
before closing brackets. -/
inductive Loosened : List Token → List Token → Prop
  | nil : Loosened [] []
  | cons {t vs ts us} : Padded t vs → Loosened ts us → Loosened (t :: ts) (vs ++ us)

/-- The second sequence is the first one with newlines put in where there is room for them, and with newlines left
out anywhere. -/
inductive Respaced : List Token → List Token → Prop
  | nil : Respaced [] []
  | drop {t ts us} : t.kind = .newline → Respaced ts us → Respaced (t :: ts) us
  | keep {t vs ts us} : Padded t vs → Respaced ts us → Respaced (t :: ts) (vs ++ us)

theorem Padded.refl (t : Token) : Padded t [t] :=
  @Padded.mk t [] [] newlines_nil (absurd rfl) newlines_nil (absurd rfl)

theorem eq_nil_of_noRoom {nl : List Token} {b : Bool} (h : nl ≠ [] → b = true) (hb : b = false) : nl = [] := by
  cases nl with
  | nil => rfl
  | cons t nl => exact absurd (h (by simp)) (by simp [hb])

namespace Respaced

variable {t : Token} {ts us vs : List Token}

theorem eq_nil (h : Respaced [] us) : us = [] := by
  cases h
  rfl

theorem dropNewlines {nl : List Token} (hnl : Newlines nl) (h : Respaced ts us) : Respaced (nl ++ ts) us := by
  induction nl with
  | nil => exact h
  | cons t nl ih => exact .drop (hnl t (by simp)) (ih fun u hu => hnl u (by simp [hu]))

/-- What comes from two parts has two parts. -/
theorem split (h : Respaced (ts ++ us) vs) : ∃ ts' us', vs = ts' ++ us' ∧ Respaced ts ts' ∧ Respaced us us' := by
  induction ts generalizing vs with
  | nil => exact ⟨[], vs, rfl, .nil, h⟩
  | cons t ts ih =>
    cases h with
    | drop ht h =>
      obtain ⟨ts', us', rfl, hts, hus⟩ := ih h
      exact ⟨ts', us', rfl, .drop ht hts, hus⟩
    | keep ht h =>
      obtain ⟨ts', us', rfl, hts, hus⟩ := ih h
      exact ⟨_, us', (List.append_assoc ..).symm, .keep ht hts, hus⟩

theorem cons_inv (h : Respaced (t :: ts) us) (ht : t.kind ≠ .newline) :
    ∃ before after us', us = before ++ t :: (after ++ us') ∧
      Newlines before ∧ (before ≠ [] → t.kind.roomBefore = true) ∧
      Newlines after ∧ (after ≠ [] → t.kind.roomAfter = true) ∧ Respaced ts us' := by
  cases h with
  | drop hnl _ => exact absurd hnl ht
  | @keep _ _ _ us' hpadded h =>
    obtain ⟨hb, hroomBefore, ha, hroomAfter⟩ := hpadded
    exact ⟨_, _, us', by simp, hb, hroomBefore, ha, hroomAfter, h⟩

theorem plain (h : Respaced (t :: ts) us) (ht : t.kind.isPlain = true) : ∃ us', us = t :: us' ∧ Respaced ts us' := by
  simp only [Kind.isPlain, Bool.and_eq_true, bne_iff_ne, ne_eq, Bool.not_eq_true'] at ht
  obtain ⟨before, after, us', rfl, -, hbefore, -, hafter, h⟩ := h.cons_inv ht.1.1
  rw [eq_nil_of_noRoom hbefore ht.1.2, eq_nil_of_noRoom hafter ht.2]
  exact ⟨us', rfl, h⟩

/-- Newlines may follow an opening bracket or a comma. -/
theorem opener (h : Respaced (t :: ts) us) (ht : t.kind.roomAfter = true) :
    ∃ nl us', us = t :: (nl ++ us') ∧ Newlines nl ∧ Respaced ts us' := by
  obtain ⟨before, after, us', rfl, -, hbefore, hnl, -, h⟩ := h.cons_inv (Kind.ne_newline_of_room (.inl ht))
  rw [eq_nil_of_noRoom hbefore (Kind.roomBefore_of_roomAfter ht)]
  exact ⟨after, us', rfl, hnl, h⟩

/-- Newlines may come before a closing bracket. -/
theorem closer (h : Respaced [t] us) (ht : t.kind.roomBefore = true) : ∃ nl, us = nl ++ [t] ∧ Newlines nl := by
  obtain ⟨before, after, us', rfl, hnl, -, -, hafter, h⟩ := h.cons_inv (Kind.ne_newline_of_room (.inr ht))
  rw [eq_nil_of_noRoom hafter (Kind.roomAfter_of_roomBefore ht), h.eq_nil]
  exact ⟨before, rfl, hnl⟩

theorem newlines {nl : List Token} (h : Respaced nl us) (hnl : Newlines nl) : Newlines us := by
  induction h with
  | nil => exact newlines_nil
  | drop _ _ ih => exact ih fun u hu => hnl u (by simp [hu])
  | @keep t vs ts us hpadded _ ih =>
    have ht : t.kind = .newline := hnl t (by simp)
    obtain ⟨-, hbefore, -, hafter⟩ := hpadded
    rw [eq_nil_of_noRoom hbefore (by rw [ht]; rfl), eq_nil_of_noRoom hafter (by rw [ht]; rfl)]
    exact List.forall_mem_cons.2 ⟨ht, ih fun u hu => hnl u (by simp [hu])⟩

end Respaced

namespace Loosened

variable {ts us : List Token}

theorem respaced (h : Loosened ts us) : Respaced ts us := by
  induction h with
  | nil => exact .nil
  | cons hpadded _ ih => exact .keep hpadded ih

theorem respaced_symm (h : Loosened ts us) : Respaced us ts := by
  induction h with
  | nil => exact .nil
  | @cons t vs ts us hpadded _ ih =>
    obtain ⟨hbefore, -, hafter, -⟩ := hpadded
    rw [List.append_assoc]
    exact .dropNewlines hbefore (.keep (.refl t) (.dropNewlines hafter ih))

end Loosened

namespace Grammar

theorem IsName.isPlain {t : Token} (h : IsName t) : t.kind.isPlain = true := by
  rcases h with h | ⟨k, h⟩ <;> rw [h] <;> rfl

theorem Key.isPlain {t : Token} {key : String} (h : Key t key) : t.kind.isPlain = true := by
  cases h with
  | name h => exact h.isPlain
  | string h => rw [h]; rfl

theorem isPlain_of_atom {t : Token} {e : Expr} (h : Atom t e) : t.kind.isPlain = true := by
  cases h <;> rw [‹t.kind = _›] <;> rfl

variable {α : Type}

/-- Respaced phrases of `L` are phrases of `M` for the same values. -/
def Carries (L M : Phrases α) : Prop := ∀ ⦃ts us x⦄, L ts x → Respaced ts us → M us x

/-- Newlines after a phrase can be taken into it, or come to stand in front of it. -/
def Absorbs (L : Phrases α) : Prop :=
  ∀ ⦃ts x nl⦄, L ts x → Newlines nl → ∃ nl' ts', ts ++ nl = nl' ++ ts' ∧ Newlines nl' ∧ L ts' x

theorem Members.absorbs {M : Phrases α} : Absorbs (Members M) := by
  intro ts xs nl h hnl
  induction h with
  | nil => exact ⟨nl, [], by simp, hnl, .nil⟩
  | @last ts nl₁ x hx hnl₁ => exact ⟨[], _, List.append_assoc .., newlines_nil, .last hx (hnl₁.append hnl)⟩
  | @cons ts nl₁ comma nl₂ us x xs hx hnl₁ hcomma hnl₂ _ ih =>
    obtain ⟨nl', us', heq, hnl', hxs⟩ := ih
    refine ⟨[], _, ?_, newlines_nil, .cons hx hnl₁ hcomma (hnl₂.append hnl') hxs⟩
    simp [heq]

theorem Members.carries {L M : Phrases α} (h : Carries L M) : Carries (Members L) (Members M) := by
  intro ts us xs hxs hus
  induction hxs generalizing us with
  | nil =>
    rw [hus.eq_nil]
    exact .nil
  | last hx hnl =>
    obtain ⟨vs, nl', rfl, hvs, hnl'⟩ := hus.split
    exact .last (h hx hvs) (hnl'.newlines hnl)
  | cons hx hnl hcomma hnl' _ ih =>
    obtain ⟨vs, rest₁, rfl, hvs, hrest₁⟩ := hus.split
    obtain ⟨nl₁, rest₂, rfl, hnl₁, hrest₂⟩ := hrest₁.split
    obtain ⟨nl₂, rest₃, rfl, hnl₂, hrest₃⟩ := hrest₂.opener (by rw [hcomma]; rfl)
    obtain ⟨nl₃, rest₄, rfl, hnl₃, hrest₄⟩ := hrest₃.split
    rw [← List.append_assoc nl₂]
    exact .cons (h hx hvs) (hnl₁.newlines hnl) hcomma (hnl₂.append (hnl₃.newlines hnl')) (ih hrest₄)

theorem Bracketed.carries {o c : Mark} {L M : Phrases α} (ho : (Kind.mark o).roomAfter = true)
    (hc : (Kind.mark c).roomBefore = true) (h : Carries L M) (hM : Absorbs M) :
    Carries (Bracketed o c L) (Bracketed o c M) := by
  intro ts us x hx hus
  obtain ⟨hopen, hnl, hx, hclose⟩ := hx
  obtain ⟨nl₁, rest₁, rfl, hnl₁, hrest₁⟩ := hus.opener (by rw [hopen, ho])
  obtain ⟨nl₂, rest₂, rfl, hnl₂, hrest₂⟩ := hrest₁.split
  obtain ⟨vs, rest₃, rfl, hvs, hrest₃⟩ := hrest₂.split
  obtain ⟨nl₃, rfl, hnl₃⟩ := hrest₃.closer (by rw [hclose, hc])
  obtain ⟨nl₄, vs', heq, hnl₄, hx'⟩ := hM (h hx hvs) hnl₃
  have hmoved := Bracketed.mk hopen (hnl₁.append ((hnl₂.newlines hnl).append hnl₄)) hx' hclose
  rw [← List.append_assoc vs, heq]
  simpa only [List.append_assoc] using hmoved

theorem Arguments.absorbs {E : Phrases Expr} : Absorbs (Arguments E) := by
  intro ts args nl h hnl
  cases h with
  | named hargs hnames =>
    obtain ⟨nl', ts', heq, hnl', hargs'⟩ := Members.absorbs hargs hnl
    exact ⟨nl', ts', heq, hnl', .named hargs' hnames⟩
  | sole he hnl₁ => exact ⟨[], _, List.append_assoc .., newlines_nil, .sole he (hnl₁.append hnl)⟩
  | soleComma he hnl₁ hcomma hnl₂ =>
    exact ⟨[], _, by simp, newlines_nil, .soleComma he hnl₁ hcomma (hnl₂.append hnl)⟩

theorem Entries.absorbs {E : Phrases Expr} : Absorbs (Entries E) := by
  intro ts entries nl h hnl
  obtain ⟨hentries, hkeys⟩ := h
  obtain ⟨nl', ts', heq, hnl', hentries'⟩ := Members.absorbs hentries hnl
  exact ⟨nl', ts', heq, hnl', .mk hentries' hkeys⟩

section Values

variable {E F : Phrases Expr} (h : Carries E F)
include h

theorem NamedArgument.carries : Carries (NamedArgument E) (NamedArgument F) := by
  intro ts us a ha hus
  obtain ⟨hname, hassign, he⟩ := ha
  obtain ⟨rest₁, rfl, hrest₁⟩ := hus.plain hname.isPlain
  obtain ⟨rest₂, rfl, hrest₂⟩ := hrest₁.plain (by rw [hassign]; rfl)
  exact .mk hname hassign (h he hrest₂)

theorem ObjectEntry.carries : Carries (ObjectEntry E) (ObjectEntry F) := by
  intro ts us a ha hus
  obtain ⟨hkey, hsep, he⟩ := ha
  obtain ⟨rest₁, rfl, hrest₁⟩ := hus.plain hkey.isPlain
  obtain ⟨rest₂, rfl, hrest₂⟩ := hrest₁.plain (by rcases hsep with hsep | hsep <;> rw [hsep] <;> rfl)
  exact .mk hkey hsep (h he hrest₂)

theorem Arguments.carries : Carries (Arguments E) (Arguments F) := by
  intro ts us args hargs hus
  cases hargs with
  | named hargs hnames => exact .named (Members.carries (NamedArgument.carries h) hargs hus) hnames
  | sole he hnl =>
    obtain ⟨vs, nl', rfl, hvs, hnl'⟩ := hus.split
    exact .sole (h he hvs) (hnl'.newlines hnl)
  | soleComma he hnl hcomma hnl' =>
    obtain ⟨vs, rest₁, rfl, hvs, hrest₁⟩ := hus.split
    obtain ⟨nl₁, rest₂, rfl, hnl₁, hrest₂⟩ := hrest₁.split
    obtain ⟨nl₂, rest₃, rfl, hnl₂, hrest₃⟩ := hrest₂.opener (by rw [hcomma]; rfl)
    exact .soleComma (h he hvs) (hnl₁.newlines hnl) hcomma (hnl₂.append (hrest₃.newlines hnl'))

theorem Entries.carries : Carries (Entries E) (Entries F) := by
  intro ts us entries hentries hus
  obtain ⟨hentries, hkeys⟩ := hentries
  exact .mk (Members.carries (ObjectEntry.carries h) hentries hus) hkeys

theorem Layer.carries : Carries (Layer E) (Layer F) := by
  intro ts us e he hus
  cases he with
  | atom ht =>
    obtain ⟨rest, rfl, hrest⟩ := hus.plain (isPlain_of_atom ht)
    rw [hrest.eq_nil]
    exact .atom ht
  | call ht hargs =>
    obtain ⟨rest, rfl, hrest⟩ := hus.plain ht.isName.isPlain
    exact .call ht (Bracketed.carries rfl rfl (Arguments.carries h) Arguments.absorbs hargs hrest)
  | list hitems => exact .list (Bracketed.carries rfl rfl (Members.carries h) Members.absorbs hitems hus)
  | object hentries => exact .object (Bracketed.carries rfl rfl (Entries.carries h) Entries.absorbs hentries hus)

end Values

theorem Value.carries : Carries Value Value :=
  fun _ _ _ he => Value.fold (E := fun ts e => ∀ us, Respaced ts us → Value us e)
    (fun _ _ hlayer _ hus => .of (Layer.carries (fun _ us _ he => he us) hlayer hus)) he _

theorem args_carries : Carries Args Args :=
  Bracketed.carries rfl rfl (Arguments.carries Value.carries) Arguments.absorbs

theorem Break.respaced {bracketed : Bool} {nl us : List Token} (h : Break bracketed nl) (hus : Respaced nl us) :
    Break bracketed us := by
  refine ⟨hus.newlines h.1, fun hb => ?_⟩
  rw [h.2 hb] at hus
  exact hus.eq_nil

theorem ArmEnd.respaced {ts us : List Token} (h : ArmEnd ts) (hus : Respaced ts us) : ArmEnd us := by
  cases h with
  | plain hnl => exact .plain (hus.newlines hnl)
  | comma ht hnl =>
    obtain ⟨nl₁, rest, rfl, hnl₁, hrest⟩ := hus.opener (by rw [ht]; rfl)
    exact .comma ht (hnl₁.append (hrest.newlines hnl))

theorem ArmEnd.append {ts nl : List Token} (h : ArmEnd ts) (hnl : Newlines nl) : ArmEnd (ts ++ nl) := by
  cases h with
  | plain hnl₁ => exact .plain (hnl₁.append hnl)
  | comma ht hnl₁ => exact .comma ht (hnl₁.append hnl)

section Blocks

variable {B C : Phrases RouterBlock} (h : Carries B C)
include h

theorem Step.carries : Carries (Step B) (Step C) := by
  intro ts us e he hus
  induction he generalizing us with
  | value he => exact .value (Value.carries he hus)
  | router he hb =>
    obtain ⟨vs, ws, rfl, hvs, hws⟩ := hus.split
    exact .router (Value.carries he hvs) (h hb hws)
  | bind _ hbind hname hargs ih =>
    obtain ⟨vs, rest₁, rfl, hvs, hrest₁⟩ := hus.split
    obtain ⟨rest₂, rfl, hrest₂⟩ := hrest₁.plain (by rw [hbind]; rfl)
    obtain ⟨rest₃, rfl, hrest₃⟩ := hrest₂.plain (by rw [hname]; rfl)
    exact .bind (ih hvs) hbind hname (args_carries hargs hrest₃)

theorem MoreSteps.carries {bracketed : Bool} : Carries (MoreSteps B bracketed) (MoreSteps C bracketed) := by
  intro ts us es hes hus
  induction hes generalizing us with
  | nil =>
    rw [hus.eq_nil]
    exact .nil
  | cons hnl hpipe hnl' he _ ih =>
    obtain ⟨nl₁, rest₁, rfl, hnl₁, hrest₁⟩ := hus.split
    obtain ⟨rest₂, rfl, hrest₂⟩ := hrest₁.plain (by rw [hpipe]; rfl)
    obtain ⟨nl₂, rest₃, rfl, hnl₂, hrest₃⟩ := hrest₂.split
    obtain ⟨vs, ws, rfl, hvs, hws⟩ := hrest₃.split
    exact .cons (hnl.respaced hnl₁) hpipe (hnl'.respaced hnl₂) (Step.carries h he hvs) (ih hws)

theorem Pipeline.carries {bracketed : Bool} : Carries (Pipeline B bracketed) (Pipeline C bracketed) := by
  intro ts us es hes hus
  obtain ⟨he, hes⟩ := hes
  obtain ⟨vs, ws, rfl, hvs, hws⟩ := hus.split
  exact .mk (Step.carries h he hvs) (MoreSteps.carries h hes hws)

theorem Arms.carries : Carries (Arms B) (Arms C) := by
  intro ts us b hb hus
  induction hb generalizing us with
  | nil =>
    rw [hus.eq_nil]
    exact .nil
  | case ht he harrow haction hend _ ih =>
    obtain ⟨rest₁, rfl, hrest₁⟩ := hus.plain (by rw [ht]; rfl)
    obtain ⟨condition, rest₂, rfl, hcondition, hrest₂⟩ := hrest₁.split
    obtain ⟨rest₃, rfl, hrest₃⟩ := hrest₂.plain (by rw [harrow]; rfl)
    obtain ⟨action, rest₄, rfl, haction', hrest₄⟩ := hrest₃.split
    obtain ⟨vs, ws, rfl, hvs, hws⟩ := hrest₄.split
    have haction := Pipeline.carries h haction haction'
    exact .case ht (Value.carries he hcondition) harrow haction (hend.respaced hvs) (ih hws)
  | fallback ht harrow haction hend _ ih =>
    obtain ⟨rest₁, rfl, hrest₁⟩ := hus.plain (by rw [ht]; rfl)
    obtain ⟨rest₂, rfl, hrest₂⟩ := hrest₁.plain (by rw [harrow]; rfl)
    obtain ⟨action, rest₃, rfl, haction', hrest₃⟩ := hrest₂.split
    obtain ⟨vs, ws, rfl, hvs, hws⟩ := hrest₃.split
    exact .fallback ht harrow (Pipeline.carries h haction haction') (hend.respaced hvs) (ih hws)

end Blocks

theorem Arms.absorbs {B : Phrases RouterBlock} : Absorbs (Arms B) := by
  intro ts b nl h hnl
  induction h with
  | nil => exact ⟨nl, [], by simp, hnl, .nil⟩
  | case ht he harrow haction hend _ ih =>
    obtain ⟨nl', ws', heq, hnl', hws⟩ := ih
    refine ⟨[], _, ?_, newlines_nil, .case ht he harrow haction (hend.append hnl') hws⟩
    simp [heq]
  | fallback ht harrow haction hend _ ih =>
    obtain ⟨nl', ws', heq, hnl', hws⟩ := ih
    refine ⟨[], _, ?_, newlines_nil, .fallback ht harrow haction (hend.append hnl') hws⟩
    simp [heq]

theorem Block.carries : Carries Block Block :=
  fun _ _ _ hb => Block.fold (B := fun ts b => ∀ us, Respaced ts us → Block us b)
    (fun _ _ harms _ hus =>
      .of (Bracketed.carries rfl rfl (Arms.carries fun _ us _ hb => hb us) Arms.absorbs harms hus)) hb _

theorem fieldEnd_of_newlines {nl : List Token} (h : Newlines nl) : FieldEnd nl := by
  cases nl with
  | nil => exact .nil
  | cons t nl => exact .cons (.inr (h t (by simp))) fun u hu => h u (by simp [hu])

theorem FieldEnd.respaced {ts us : List Token} (h : FieldEnd ts) (hus : Respaced ts us) : FieldEnd us := by
  cases h with
  | nil =>
    rw [hus.eq_nil]
    exact .nil
  | cons ht hnl =>
    rcases ht with ht | ht
    · obtain ⟨nl₁, rest, rfl, hnl₁, hrest⟩ := hus.opener (by rw [ht]; rfl)
      exact .cons (.inl ht) (hnl₁.append (hrest.newlines hnl))
    · exact fieldEnd_of_newlines (hus.newlines (List.forall_mem_cons.2 ⟨ht, hnl⟩))

theorem FieldEnd.append {ts nl : List Token} (h : FieldEnd ts) (hnl : Newlines nl) : FieldEnd (ts ++ nl) := by
  cases h with
  | nil => exact fieldEnd_of_newlines hnl
  | cons ht hnl₁ => exact .cons ht (hnl₁.append hnl)

theorem Fields.carries : Carries Fields Fields := by
  intro ts us fs hfs hus
  induction hfs generalizing us with
  | nil =>
    rw [hus.eq_nil]
    exact .nil
  | cons hname hcolon htype hend _ ih =>
    obtain ⟨rest₁, rfl, hrest₁⟩ := hus.plain (by rw [hname]; rfl)
    obtain ⟨rest₂, rfl, hrest₂⟩ := hrest₁.plain (by rw [hcolon]; rfl)
    obtain ⟨rest₃, rfl, hrest₃⟩ := hrest₂.plain (by rw [htype]; rfl)
    obtain ⟨vs, ws, rfl, hvs, hws⟩ := hrest₃.split
    exact .cons hname hcolon htype (hend.respaced hvs) (ih hws)

theorem Fields.absorbs : Absorbs Fields := by
  intro ts fs nl h hnl
  induction h with
  | nil => exact ⟨nl, [], by simp, hnl, .nil⟩
  | cons hname hcolon htype hend _ ih =>
    obtain ⟨nl', vs', heq, hnl', hvs⟩ := ih
    refine ⟨[], _, ?_, newlines_nil, .cons hname hcolon htype (hend.append hnl') hvs⟩
    simp [heq]

theorem ContextBody.carries : Carries ContextBody ContextBody := by
  intro ts us x hx hus
  cases hx with
  | mk hmemory hargs ho hnl hsteps hnl' hc =>
    obtain ⟨rest₁, rfl, hrest₁⟩ := hus.plain (by rw [hmemory]; rfl)
    obtain ⟨args, rest₂, rfl, hargs', hrest₂⟩ := hrest₁.split
    obtain ⟨nl₁, rest₃, rfl, hnl₁, hrest₃⟩ := hrest₂.opener (by rw [ho]; rfl)
    obtain ⟨nl₂, rest₄, rfl, hnl₂, hrest₄⟩ := hrest₃.split
    obtain ⟨steps, rest₅, rfl, hsteps', hrest₅⟩ := hrest₄.split
    obtain ⟨nl₃, rest₆, rfl, hnl₃, hrest₆⟩ := hrest₅.split
    obtain ⟨nl₄, rfl, hnl₄⟩ := hrest₆.closer (by rw [hc]; rfl)
    rw [← List.append_assoc nl₁, ← List.append_assoc nl₃]
    exact .mk hmemory (args_carries hargs hargs') ho (hnl₁.append (hnl₂.newlines hnl))
      (Pipeline.carries Block.carries hsteps hsteps') ((hnl₃.newlines hnl').append hnl₄) hc

theorem Sentence.carries : Carries Sentence Sentence := by
  intro ts us s hs hus
  cases hs with
  | definition ht hname hassign hvalue =>
    obtain ⟨rest₁, rfl, hrest₁⟩ := hus.plain (by rw [ht]; rfl)
    obtain ⟨rest₂, rfl, hrest₂⟩ := hrest₁.plain (by rw [hname]; rfl)
    obtain ⟨rest₃, rfl, hrest₃⟩ := hrest₂.plain (by rw [hassign]; rfl)
    exact .definition ht hname hassign (Step.carries Block.carries hvalue hrest₃)
  | chain ht hname hassign hsteps =>
    obtain ⟨rest₁, rfl, hrest₁⟩ := hus.plain (by rw [ht]; rfl)
    obtain ⟨rest₂, rfl, hrest₂⟩ := hrest₁.plain (by rw [hname]; rfl)
    obtain ⟨rest₃, rfl, hrest₃⟩ := hrest₂.plain (by rw [hassign]; rfl)
    exact .chain ht hname hassign (Pipeline.carries Block.carries hsteps hrest₃)
  | chainWith ht hname hassign hw hbody =>
    obtain ⟨rest₁, rfl, hrest₁⟩ := hus.plain (by rw [ht]; rfl)
    obtain ⟨rest₂, rfl, hrest₂⟩ := hrest₁.plain (by rw [hname]; rfl)
    obtain ⟨rest₃, rfl, hrest₃⟩ := hrest₂.plain (by rw [hassign]; rfl)
    obtain ⟨rest₄, rfl, hrest₄⟩ := hrest₃.plain (by rw [hw]; rfl)
    exact .chainWith ht hname hassign hw (ContextBody.carries hbody hrest₄)
  | schema ht hname hfs =>
    obtain ⟨rest₁, rfl, hrest₁⟩ := hus.plain (by rw [ht]; rfl)
    obtain ⟨rest₂, rfl, hrest₂⟩ := hrest₁.plain (by rw [hname]; rfl)
    exact .schema ht hname (Bracketed.carries rfl rfl Fields.carries Fields.absorbs hfs hrest₂)

/-- A program stays what it is when its tokens are respaced. -/
theorem Sentences.carries : Carries Sentences Sentences := by
  intro ts us p hp hus
  induction hp generalizing us with
  | nil =>
    rw [hus.eq_nil]
    exact .nil
  | @newline t ts p ht _ ih =>
    have hparts : Respaced ([t] ++ ts) us := hus
    obtain ⟨nl, vs, rfl, hnl, hvs⟩ := hparts.split
    exact (ih hvs).newlines (hnl.newlines (by simpa [Newlines] using ht))
  | cons hs _ ih =>
    obtain ⟨vs, ws, rfl, hvs, hws⟩ := hus.split
    exact .cons (Sentence.carries hs hvs) (ih hws)

end Grammar

def Token.upToEnd (ts : List Token) : List Token := ts.takeWhile (·.kind != .eof)

theorem Token.ne_eof_of_mem_upToEnd {ts : List Token} : ∀ t ∈ upToEnd ts, t.kind ≠ .eof :=
  fun _ ht => by simpa using List.mem_takeWhile_imp ht

theorem Loosened.upToEnd {ts us : List Token} (h : Loosened ts us) :
    Loosened (Token.upToEnd ts) (Token.upToEnd us) := by
  induction h with
  | nil => exact .nil
  | @cons t vs ts us hpadded _ ih =>
    by_cases ht : t.kind = .eof
    · obtain ⟨-, hbefore, -, hafter⟩ := hpadded
      rw [eq_nil_of_noRoom hbefore (by rw [ht]; rfl), eq_nil_of_noRoom hafter (by rw [ht]; rfl)]
      simpa [Token.upToEnd, ht] using Loosened.nil
    · have hvs : ∀ v ∈ vs, (v.kind != .eof) = true := by
        obtain ⟨hbefore, -, hafter, -⟩ := hpadded
        simp only [List.forall_mem_append, List.forall_mem_cons]
        exact ⟨fun v hv => by simp [hbefore v hv], by simpa using ht, fun v hv => by simp [hafter v hv]⟩
      rw [Token.upToEnd, Token.upToEnd, List.takeWhile_append_of_pos hvs,
        List.takeWhile_cons_of_pos (by simpa using ht)]
      exact .cons hpadded ih

namespace Program

/-- Only the tokens up to the first end of input are parsed, as if there were no others. -/
theorem exists_ofTokens_eq_upToEnd (ts : List Token) :
    ∃ eof : Token, eof.kind = .eof ∧ ofTokens ts = ofTokens (Token.upToEnd ts ++ [eof]) := by
  by_cases hend : ∃ t ∈ ts, t.kind = .eof
  · obtain ⟨front, eof, rest, rfl, hfront, heof⟩ := exists_first_eof hend
    have hupto : Token.upToEnd (front ++ eof :: rest) = front := by
      rw [Token.upToEnd, List.takeWhile_append_of_pos (by simpa using hfront),
        List.takeWhile_cons_of_neg (by simp [heof]), List.append_nil]
    exact ⟨eof, heof, by rw [hupto, ofTokens_append_eof_eq heof front rest []]⟩
  · have hupto : Token.upToEnd ts = ts := List.takeWhile_eq_self_iff.2 (by simpa using hend)
    rcases Cursor.tokens_ofTokens ts with h | ⟨p, h⟩
    · obtain ⟨t, ht, hk⟩ := Cursor.closed_ofTokens ts
      exact absurd ⟨t, h ▸ ht, hk⟩ hend
    · refine ⟨.eofAt p, rfl, ?_⟩
      have hcursor : Cursor.ofTokens ts = Cursor.ofTokens (ts ++ [.eofAt p]) := by
        rw [Cursor.ofTokens_append_eof ts rfl]
        exact Cursor.ext_tokens (by rw [h, Cursor.tokens_back]; rfl)
      rw [hupto, ofTokens, hcursor, ofTokens]

theorem ofTokens_eq_ok_iff_sentences {ts : List Token} {p : Program} :
    ofTokens ts = .ok p ↔ Grammar.Sentences (Token.upToEnd ts) p := by
  obtain ⟨eof, heof, heq⟩ := exists_ofTokens_eq_upToEnd ts
  rw [heq]
  exact ⟨sentences_of_ofTokens Token.ne_eof_of_mem_upToEnd heof, fun h => ofTokens_of_sentences h heof⟩

/-- Newlines directly after an opening bracket or a comma, or directly before a closing bracket, do not matter, in any
sequence of tokens. -/
theorem ofTokens_eq_ok_iff_of_loosened {ts us : List Token} (h : Loosened ts us) (p : Program) :
    ofTokens ts = .ok p ↔ ofTokens us = .ok p := by
  rw [ofTokens_eq_ok_iff_sentences, ofTokens_eq_ok_iff_sentences]
  have hupto := h.upToEnd
  constructor
  · exact fun hp => Grammar.Sentences.carries hp hupto.respaced
  · exact fun hp => Grammar.Sentences.carries hp hupto.respaced_symm

def spread (nl : Token) (ts : List Token) : List Token :=
  ts.flatMap fun t => if t.kind.roomBefore then [nl, t] else if t.kind.roomAfter then [t, nl] else [t]

theorem loosened_spread {nl : Token} (hnl : nl.kind = .newline) (ts : List Token) : Loosened ts (spread nl ts) := by
  have hone : Newlines [nl] := by simpa [Newlines] using hnl
  induction ts with
  | nil => exact .nil
  | cons t ts ih =>
    refine .cons ?_ ih
    dsimp only
    split
    · next hbefore => exact @Padded.mk t [nl] [] hone (fun _ => hbefore) newlines_nil (absurd rfl)
    · split
      · next hafter => exact @Padded.mk t [] [nl] newlines_nil (absurd rfl) hone fun _ => hafter
      · exact .refl t

def routerTokens : List Token :=
  [⟨.keyword .defKw, "def", ⟨1, 1⟩⟩, ⟨.identifier, "r", ⟨1, 5⟩⟩, ⟨.mark .assign, "=", ⟨1, 7⟩⟩,
    ⟨.keyword .router, "Router", ⟨1, 9⟩⟩, ⟨.mark .lparen, "(", ⟨1, 15⟩⟩, ⟨.identifier, "k", ⟨1, 16⟩⟩,
    ⟨.mark .assign, "=", ⟨1, 18⟩⟩, ⟨.mark .lbracket, "[", ⟨1, 20⟩⟩, ⟨.identifier, "y", ⟨1, 21⟩⟩,
    ⟨.mark .rbracket, "]", ⟨1, 22⟩⟩, ⟨.mark .rparen, ")", ⟨1, 23⟩⟩, ⟨.mark .lbrace, "\x7b", ⟨1, 25⟩⟩,
    ⟨.keyword .defaultKw, "default", ⟨1, 27⟩⟩, ⟨.mark .arrow, "=>", ⟨1, 35⟩⟩, ⟨.identifier, "x", ⟨1, 38⟩⟩,
    ⟨.mark .comma, ",", ⟨1, 39⟩⟩, ⟨.mark .rbrace, "\x7d", ⟨1, 41⟩⟩, ⟨.eof, "", ⟨1, 42⟩⟩]

theorem ofTokens_spread_routerTokens :
    Loosened routerTokens (spread ⟨.newline, "\n", ⟨7, 7⟩⟩ routerTokens) ∧
      ofTokens (spread ⟨.newline, "\n", ⟨7, 7⟩⟩ routerTokens) =
        .ok [⟨"r", 1, .definition (.call
          ⟨"Router", [⟨some "k", .list [.identifier "y"]⟩], some ⟨[], some [.identifier "x"]⟩⟩)⟩] := by
  have hloosened : Loosened routerTokens (spread ⟨.newline, "\n", ⟨7, 7⟩⟩ routerTokens) := loosened_spread rfl _
  exact ⟨hloosened, (ofTokens_eq_ok_iff_of_loosened hloosened _).1 rfl⟩

end Program

end ChainCompiler
