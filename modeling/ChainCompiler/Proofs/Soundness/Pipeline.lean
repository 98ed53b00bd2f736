import ChainCompiler.Parser.Pipeline
import ChainCompiler.Proofs.Soundness.Expr

/-! Whatever the parsers of pipelines and router blocks read is derived by the grammar. -/

namespace ChainCompiler.Parser

open Grammar

theorem joinLines_reads : Reads joinLines fun ts _ => Newlines ts := by
  intro c c' u hc hp
  unfold joinLines at hp
  split at hp
  · exact skipNewlines_reads hc hp
  · cases hp
    exact ⟨hc, [], rfl, newlines_nil⟩

theorem joinLines_stays {c c' : Cursor} (h : joinLines c = .ok ((), c')) (hk : c'.current.kind ≠ .mark .pipe) :
    c' = c := by
  unfold joinLines at h
  split at h
  · next hpipe =>
    cases h
    exact absurd hpipe hk
  · cases h
    rfl

/-- Where lines may be broken, newlines are passed over. -/
theorem break_reads {P : Parser Unit} (h : Reads P fun ts _ => Newlines ts) (bracketed : Bool) :
    Reads (if bracketed then P else pure ()) fun ts _ => Break bracketed ts := by
  cases bracketed with
  | true => exact h.mono fun _ _ hnl => ⟨hnl, by simp⟩
  | false =>
    intro c c' u hc hp
    cases hp
    exact ⟨hc, [], rfl, by simp [Newlines], by simp⟩

/-- A call read as an expression has no router block yet. -/
theorem router_of_value {ts : List Token} {m : Call} (h : Value ts (.call m)) : m.router = none := by
  obtain ⟨h⟩ := h
  cases h with
  | atom h => cases h
  | call => rfl

section Nested

variable {block : Parser RouterBlock} {B : Phrases RouterBlock} (h : Reads block B)
include h

theorem exprBlock_reads (n : Nat) : Reads (exprBlock n block) (Step B) := by
  intro c c' e hc hp
  simp only [exprBlock, bind_eq_ok] at hp
  obtain ⟨e₁, c₁, h₁, hp⟩ := hp
  obtain ⟨hc₁, ts, rfl, hvalue⟩ := expr_reads n hc h₁
  cases e₁ with
  | call m =>
    simp only [bind_eq_ok] at hp
    obtain ⟨b, _, hb, hp⟩ := hp
    cases hb
    split at hp
    · next hrouter =>
      simp only [bind_eq_ok] at hp
      obtain ⟨b, c₂, h₂, hp⟩ := hp
      cases hp
      obtain ⟨hc₂, us, rfl, hb⟩ := h hc₁ h₂
      obtain ⟨name, args, router⟩ := m
      obtain rfl : router = none := router_of_value hvalue
      obtain ⟨rfl, -⟩ : name = Keyword.router.spelling ∧ _ := by simpa using hrouter
      exact ⟨hc₂, ts ++ us, (Cursor.back_append ..).symm, .router hvalue hb⟩
    · cases hp
      exact ⟨hc₁, ts, rfl, .value hvalue⟩
  | _ =>
    cases hp
    exact ⟨hc₁, ts, rfl, .value hvalue⟩

omit h in
/-- Modifiers extend the step that has been read before them. -/
theorem modifiers_reads {ts : List Token} :
    ∀ {n : Nat} {e : Expr}, Step B ts e → Reads (modifiers n e) fun us e' => Step B (ts ++ us) e' := by
  intro n
  induction n generalizing ts with
  | zero =>
    intro e he c c' e' hc hp
    cases hp
    exact ⟨hc, [], rfl, by simpa using he⟩
  | succ n ih =>
    intro e he c c' e' hc hp
    simp only [modifiers, bind_eq_ok] at hp
    obtain ⟨b, _, hb, hp⟩ := hp
    cases hb
    split at hp
    · next hbind =>
      have hk : c.current.kind = .mark .bind := by simpa using hbind
      obtain ⟨c₁, hc₁, hback, hp⟩ := next_bind_reads hc (by simp [hk]) hp
      simp only [bind_eq_ok] at hp
      obtain ⟨name, c₂, h₂, m, c₃, h₃, hp⟩ := hp
      obtain ⟨hc₂, _, rfl, t, rfl, ht, rfl⟩ := expectIdentifier_reads _ hc₁ h₂
      obtain ⟨hc₃, us, rfl, args, hargs, rfl⟩ := call_reads (expr_reads n) n _ hc₂ h₃
      obtain ⟨hc₄, vs, rfl, he'⟩ := ih (.bind he hk ht hargs) hc₃ hp
      refine ⟨hc₄, c.current :: t :: (us ++ vs), ?_, by simpa using he'⟩
      rw [hback]
      simp [← Cursor.back_append]
    · cases hp
      exact ⟨hc, [], rfl, by simpa using he⟩

theorem step_reads (n : Nat) : Reads (step n block) (Step B) := by
  intro c c' e hc hp
  simp only [step, bind_eq_ok] at hp
  obtain ⟨e₁, c₁, h₁, hp⟩ := hp
  obtain ⟨hc₁, ts, rfl, he₁⟩ := exprBlock_reads h n hc h₁
  obtain ⟨hc₂, us, rfl, he⟩ := modifiers_reads he₁ hc₁ hp
  exact ⟨hc₂, ts ++ us, (Cursor.back_append ..).symm, he⟩

theorem moreSteps_reads (bracketed : Bool) (n : Nat) : Reads (moreSteps block bracketed n) (MoreSteps B bracketed) := by
  induction n with
  | zero =>
    intro c c' es hc hp
    cases hp
    exact ⟨hc, [], rfl, .nil⟩
  | succ n ih =>
    intro c c' es hc hp
    simp only [moreSteps_succ, bind_eq_ok] at hp
    obtain ⟨_, c₁, h₁, b, _, hb, hp⟩ := hp
    cases hb
    obtain ⟨hc₁, nl, hback, hnl⟩ := break_reads joinLines_reads bracketed hc h₁
    split at hp
    · next hpipe =>
      have hk : c₁.current.kind = .mark .pipe := by simpa using hpipe
      obtain ⟨c₂, hc₂, hback₁, hp⟩ := next_bind_reads hc₁ (by simp [hk]) hp
      simp only [bind_eq_ok] at hp
      obtain ⟨_, c₃, h₃, e, c₄, h₄, es', c₅, h₅, hp⟩ := hp
      cases hp
      obtain ⟨hc₃, nl', rfl, hnl'⟩ := break_reads skipNewlines_reads bracketed hc₂ h₃
      obtain ⟨hc₄, ts, rfl, he⟩ := step_reads h n hc₃ h₄
      obtain ⟨hc₅, us, rfl, hes⟩ := ih hc₄ h₅
      refine ⟨hc₅, _, ?_, .cons hnl hk hnl' he hes⟩
      rw [hback, hback₁]
      simp [← Cursor.back_append]
    · next hpipe =>
      cases hp
      obtain rfl : c' = c := by
        cases bracketed with
        | true => exact joinLines_stays h₁ (by simpa using hpipe)
        | false => cases h₁; rfl
      exact ⟨hc, [], rfl, .nil⟩

theorem pipeline_reads (n : Nat) (bracketed : Bool) : Reads (pipeline n block bracketed) (Pipeline B bracketed) := by
  intro c c' es hc hp
  simp only [pipeline, bind_eq_ok] at hp
  obtain ⟨e, c₁, h₁, es', c₂, h₂, hp⟩ := hp
  cases hp
  obtain ⟨hc₁, ts, rfl, he⟩ := step_reads h n hc h₁
  obtain ⟨hc₂, us, rfl, hes⟩ := moreSteps_reads h bracketed n hc₁ h₂
  exact ⟨hc₂, ts ++ us, (Cursor.back_append ..).symm, .mk he hes⟩

/-- An arm in front of the arms of a block that has no second fallback. -/
theorem arm_reads (n : Nat) (hasFallback : Bool) :
    Reads (arm n block hasFallback) fun ts a =>
      (hasFallback = true → a.isFallback = false) ∧
      ∀ vs ws b, ArmEnd vs → Arms B ws b → (a.isFallback = true → b.fallback = none) →
        Arms B (ts ++ (vs ++ ws)) (a.before b) := by
  intro c c' a hc hp
  simp only [arm, bind_eq_ok] at hp
  obtain ⟨t, _, ht, hp⟩ := hp
  cases ht
  cases hk : c.current.kind with
  | keyword k =>
    rw [hk] at hp
    cases k with
    | caseKw =>
      obtain ⟨c₁, hc₁, hback, hp⟩ := next_bind_reads hc (by simp [hk]) hp
      simp only [bind_eq_ok] at hp
      obtain ⟨e, c₂, h₂, arrow, c₃, h₃, steps, c₄, h₄, hp⟩ := hp
      cases hp
      obtain ⟨hc₂, ts, rfl, he⟩ := expr_reads n hc₁ h₂
      obtain ⟨hc₃, _, rfl, rfl, harrow⟩ := expect_reads (by simp) _ hc₂ h₃
      obtain ⟨hc₄, us, rfl, hsteps⟩ := pipeline_reads h n true hc₃ h₄
      refine ⟨hc₄, c.current :: (ts ++ arrow :: us), ?_, by simp [Arm.isFallback], ?_⟩
      · rw [hback]
        simp [← Cursor.back_append]
      · intro vs ws b hvs hws _
        obtain ⟨cases, fallback⟩ := b
        simpa [Arm.before] using Arms.case hk he harrow hsteps hvs hws
    | defaultKw =>
      simp only at hp
      split at hp
      · exact absurd hp duplicate_bind_ne_ok
      next hfirst =>
      obtain ⟨c₁, hc₁, hback, hp⟩ := next_bind_reads hc (by simp [hk]) hp
      simp only [bind_eq_ok] at hp
      obtain ⟨arrow, c₃, h₃, steps, c₄, h₄, hp⟩ := hp
      cases hp
      obtain ⟨hc₃, _, rfl, rfl, harrow⟩ := expect_reads (by simp) _ hc₁ h₃
      obtain ⟨hc₄, us, rfl, hsteps⟩ := pipeline_reads h n true hc₃ h₄
      refine ⟨hc₄, c.current :: arrow :: us, ?_, fun hf => absurd hf hfirst, ?_⟩
      · rw [hback]
        simp [← Cursor.back_append]
      · intro vs ws b hvs hws hb
        obtain ⟨cases, fallback⟩ := b
        obtain rfl : fallback = none := hb rfl
        simpa [Arm.before] using Arms.fallback hk harrow hsteps hvs hws
    | _ => cases hp
  | _ => rw [hk] at hp; cases hp

theorem arms_reads (n : Nat) (hasFallback : Bool) :
    Reads (arms block n hasFallback) fun ts b =>
      (∃ nl us, ts = nl ++ us ∧ Newlines nl ∧ Arms B us b) ∧ (hasFallback = true → b.fallback = none) := by
  induction n generalizing hasFallback with
  | zero => intro c c' b hc hp; cases hp
  | succ n ih =>
    intro c c' b hc hp
    simp only [arms, bind_eq_ok] at hp
    obtain ⟨_, c₁, h₁, b, _, hb, hp⟩ := hp
    cases hb
    obtain ⟨hc₁, nl, rfl, hnl⟩ := skipNewlines_reads hc h₁
    split at hp
    · cases hp
      exact ⟨hc₁, nl, rfl, ⟨nl, [], by simp, hnl, .nil⟩, by simp⟩
    simp only [bind_eq_ok] at hp
    obtain ⟨a, c₂, h₂, b', _, hb, hp⟩ := hp
    cases hb
    obtain ⟨hc₂, ts, rfl, hfirst, harms⟩ := arm_reads h n hasFallback hc₁ h₂
    -- with or without the comma, what follows is read by the same call
    obtain ⟨us, c₃, b', hus, hc₃, rfl, h₃, rfl⟩ : ∃ us c₃ b', (us = [] ∨ ∃ t, us = [t] ∧ t.kind = .mark .comma) ∧
        Cursor.Closed c₃ ∧ c₂ = c₃.back us ∧
        arms block n (hasFallback || a.isFallback) c₃ = .ok (b', c') ∧ b = a.before b' := by
      split at hp
      · next hcomma =>
        have hk : c₂.current.kind = .mark .comma := by simpa using hcomma
        obtain ⟨c₃, hc₃, hback, hp⟩ := next_bind_reads hc₂ (by simp [hk]) hp
        obtain ⟨b', c₄, h₄, hp⟩ := bind_eq_ok.1 hp
        cases hp
        exact ⟨_, c₃, b', .inr ⟨_, rfl, hk⟩, hc₃, hback, h₄, rfl⟩
      · obtain ⟨b', c₄, h₄, hp⟩ := bind_eq_ok.1 hp
        cases hp
        exact ⟨[], c₂, b', .inl rfl, hc₂, rfl, h₄, rfl⟩
    obtain ⟨hc₄, vs, rfl, ⟨nl', ws, rfl, hnl', hws⟩, hlast⟩ := ih _ hc₃ h₃
    have hend : ArmEnd (us ++ nl') := by
      rcases hus with rfl | ⟨t, rfl, ht⟩
      · exact .plain hnl'
      · exact .comma ht hnl'
    have hone : a.isFallback = true → b'.fallback = none := fun ha => hlast (by simp [ha])
    refine ⟨hc₄, nl ++ (ts ++ (us ++ nl' ++ ws)), ?_, ⟨nl, _, rfl, hnl, harms _ _ _ hend hws hone⟩, ?_⟩
    · simp [← Cursor.back_append]
    · intro hf
      have ha := hfirst hf
      have hb' := hlast (by simp [hf])
      cases a with
      | case condition action => exact hb'
      | fallback action => cases ha

theorem routerBlockWith_reads (n : Nat) : Reads (routerBlockWith n block) (Bracketed .lbrace .rbrace (Arms B)) := by
  intro c c' b hc hp
  simp only [routerBlockWith, bind_eq_ok] at hp
  obtain ⟨o, c₁, h₁, b', c₂, h₂, t, c₃, h₃, hp⟩ := hp
  cases hp
  obtain ⟨hc₁, _, rfl, rfl, ho⟩ := expect_reads (by simp) _ hc h₁
  obtain ⟨hc₂, _, rfl, ⟨nl, us, rfl, hnl, harms⟩, -⟩ := arms_reads h _ _ hc₁ h₂
  obtain ⟨hc₃, _, rfl, rfl, ht⟩ := expect_reads (by simp) _ hc₂ h₃
  refine ⟨hc₃, _, ?_, .mk ho hnl harms ht⟩
  simp [← Cursor.back_append]

end Nested

theorem routerBlockTo_reads (n : Nat) : Reads (routerBlockTo n) Block := by
  induction n with
  | zero => intro c c' b hc hp; cases hp
  | succ n ih => exact (routerBlockWith_reads ih n).mono fun _ _ => .of

theorem routerBlock_reads (n : Nat) : Reads (routerBlock n) Block := routerBlockTo_reads (n + 1)

end ChainCompiler.Parser
