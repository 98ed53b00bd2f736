import ChainCompiler.Parser.Pipeline
import ChainCompiler.Proofs.Completeness.Expr

/-! Whatever the grammar derives as a pipeline or a router block is accepted, whole, by the parsers of these, as long
as what follows does not continue it. -/

namespace ChainCompiler

namespace Cursor

/-- What comes next continues neither a step nor the modifiers of one. -/
structure StepEnd (c : Cursor) : Prop where
  noCall : c.NoCall
  noBlock : c.current.kind ≠ .mark .lbrace
  noBind : c.current.kind ≠ .mark .bind

/-- What comes next continues no pipeline, on this line or, inside brackets, on a later one. -/
structure PipelineEnd (bracketed : Bool) (c : Cursor) : Prop extends StepEnd c where
  noPipe : c.current.kind ≠ .mark .pipe
  noLaterPipe : bracketed = true → c.skipNewlines.current.kind ≠ .mark .pipe

end Cursor

namespace Parser

open Grammar Cursor

/-- Newlines in front of a pipe are passed over where lines may be broken. -/
theorem joinLines_break {bracketed : Bool} {nl : List Token} {c : Cursor} (hnl : Break bracketed nl)
    (hc : c.current.kind = .mark .pipe) : (if bracketed then joinLines else pure ()) (c.back nl) = .ok ((), c) := by
  obtain ⟨hnl, hnil⟩ := hnl
  cases bracketed with
  | true =>
    have hskip := skipNewlines_back hnl (c := c) (by simp [hc])
    rw [if_pos rfl, joinLines, hskip, if_pos hc]
  | false => rw [hnil rfl]; rfl

theorem skipNewlines_break {bracketed : Bool} {nl : List Token} {c : Cursor} (hnl : Break bracketed nl)
    (hc : c.current.kind ≠ .newline) : (if bracketed then skipNewlines else pure ()) (c.back nl) = .ok ((), c) := by
  obtain ⟨hnl, hnil⟩ := hnl
  cases bracketed with
  | true =>
    change Except.ok ((), (c.back nl).skipNewlines) = _
    rw [skipNewlines_back hnl hc]
  | false => rw [hnil rfl]; rfl

theorem joinLines_end {bracketed : Bool} {c : Cursor} (hc : c.PipelineEnd bracketed) :
    (if bracketed then joinLines else pure ()) c = .ok ((), c) := by
  cases bracketed with
  | true => rw [if_pos rfl, joinLines, if_neg (hc.noLaterPipe rfl)]
  | false => rfl

/-- A step ends where another one or the end of its pipeline follows. -/
theorem stepEnd_of_moreSteps {B : Phrases RouterBlock} {bracketed : Bool} {us : List Token} {es : List Expr}
    {c : Cursor} (h : MoreSteps B bracketed us es) (hc : c.StepEnd) : (c.back us).StepEnd := by
  cases h with
  | nil => exact hc
  | @cons nl _ _ _ _ _ _ hnl hpipe _ _ _ =>
    obtain ⟨hnl, -⟩ := hnl
    cases nl with
    | nil => constructor <;> simp [NoCall, hpipe]
    | cons t nl =>
      have ht := hnl t (by simp)
      constructor <;> simp [NoCall, ht]

/-- Where an arm or the end of the block comes next. -/
def ArmNext (c : Cursor) : Prop :=
  c.current.kind = .keyword .caseKw ∨ c.current.kind = .keyword .defaultKw ∨ c.current.kind = .mark .rbrace

theorem ArmNext.ne {c : Cursor} {k : Kind} (h : ArmNext c) (hcase : k ≠ .keyword .caseKw)
    (hdefault : k ≠ .keyword .defaultKw) (hclose : k ≠ .mark .rbrace) : c.current.kind ≠ k := by
  rcases h with h | h | h <;> rw [h] <;> exact Ne.symm ‹_›

theorem armNext_of_arms {B : Phrases RouterBlock} {ts : List Token} {b : RouterBlock} {c : Cursor} (h : Arms B ts b)
    (hc : ArmNext c) : ArmNext (c.back ts) := by
  cases h with
  | nil => exact hc
  | case ht _ _ _ _ _ => exact .inl ht
  | fallback ht _ _ _ _ => exact .inr (.inl ht)

theorem back_newlines_ne {nl : List Token} {c : Cursor} {k : Kind} (hnl : Newlines nl) (hk : k ≠ .newline)
    (hc : c.current.kind ≠ k) : (c.back nl).current.kind ≠ k := by
  cases nl with
  | nil => exact hc
  | cons t nl => simpa [hnl t (by simp)] using hk.symm

/-- What ends an arm does not continue its pipeline. -/
theorem pipelineEnd_of_armEnd {vs : List Token} {c : Cursor} (h : ArmEnd vs) (hc : ArmNext c) :
    (c.back vs).PipelineEnd true := by
  cases h with
  | plain hnl =>
    have hline : c.current.kind ≠ .newline := hc.ne (by simp) (by simp) (by simp)
    have hne : ∀ m, m ≠ .rbrace → (c.back vs).current.kind ≠ .mark m := fun m hm =>
      back_newlines_ne hnl (by simp) (hc.ne (by simp) (by simp) (by simpa using hm))
    refine ⟨⟨hne _ (by simp), hne _ (by simp), hne _ (by simp)⟩, hne _ (by simp), fun _ => ?_⟩
    rw [skipNewlines_back hnl hline]
    exact hc.ne (by simp) (by simp) (by simp)
  | @comma t nl ht hnl =>
    have hskip : (c.back (t :: nl)).skipNewlines = c.back (t :: nl) := skipNewlines_of_ne (by simp [ht])
    refine ⟨⟨?_, ?_, ?_⟩, ?_, fun _ => ?_⟩ <;> simp [NoCall, hskip, ht]

/-- An arm that is read, then the comma that may end it, then the other arms. -/
theorem arms_cons {block : Parser RouterBlock} {m : Nat} {hasFallback : Bool} {nl us vs ws : List Token} {a : Arm}
    {b : RouterBlock} {c : Cursor} (hnl : Newlines nl) (hline : (c.back (us ++ (vs ++ ws))).current.kind ≠ .newline)
    (hclose : (c.back (us ++ (vs ++ ws))).current.kind ≠ .mark .rbrace)
    (harm : arm m block hasFallback (((c.back ws).back vs).back us) = .ok (a, (c.back ws).back vs))
    (hvs : ArmEnd vs) (hnext : ArmNext (c.back ws))
    (hrest : ∀ nl', Newlines nl' → arms block m (hasFallback || a.isFallback) (c.back (nl' ++ ws)) = .ok (b, c)) :
    arms block (m + 1) hasFallback (c.back (nl ++ (us ++ (vs ++ ws)))) = .ok (a.before b, c) := by
  rw [arms, back_append, skipNewlines_back_bind _ hnl hline, isAt_bind, if_neg (by simpa using hclose), back_append,
    back_append, bind_of_ok _ harm, isAt_bind]
  cases hvs with
  | plain hvs =>
    have hcomma := back_newlines_ne hvs (by simp) (hnext.ne (k := .mark .comma) (by simp) (by simp) (by simp))
    rw [if_neg (by simpa using hcomma), ← back_append]
    exact bind_of_ok _ (hrest vs hvs)
  | comma ht hvs =>
    rw [if_pos (by simp [ht]), next_back _ _ _ (by simp [ht]), ← back_append]
    exact bind_of_ok _ (hrest _ hvs)

section Nested

variable {block : Parser RouterBlock} {B : Phrases RouterBlock} {N : Nat}
  (hblock : ∀ {us b} (c : Cursor), B us b → us.length ≤ N → block (c.back us) = .ok (b, c))
  (hbrace : ∀ us b, B us b → ∃ t vs, us = t :: vs ∧ t.kind = .mark .lbrace)

theorem exprBlock_value {n : Nat} {ts : List Token} {e : Expr} {c : Cursor} (h : Value ts e) (hn : ts.length ≤ n + 1)
    (hcall : c.NoCall) (hc : c.current.kind ≠ .mark .lbrace) : exprBlock n block (c.back ts) = .ok (e, c) := by
  rw [exprBlock, bind_of_ok _ (expr_accepts n h hn hcall)]
  cases e with
  | call m =>
    dsimp only
    rw [isAt_bind, if_neg (by simp [hc])]
    rfl
  | _ => rfl

include hblock hbrace

theorem exprBlock_router {n : Nat} {ts us : List Token} {args : List Argument} {b : RouterBlock} {c : Cursor}
    (h : Value ts (.call ⟨Keyword.router.spelling, args, none⟩)) (hb : B us b) (hn : ts.length ≤ n + 1)
    (hN : us.length ≤ N) :
    exprBlock n block (c.back (ts ++ us)) = .ok (.call ⟨Keyword.router.spelling, args, some b⟩, c) := by
  obtain ⟨t, vs, rfl, ht⟩ := hbrace us b hb
  rw [exprBlock, back_append, bind_of_ok _ (expr_accepts n h hn (by simp [NoCall, ht]))]
  dsimp only
  rw [isAt_bind, if_pos (by simp [ht]), bind_of_ok _ (hblock c hb hN)]
  rfl

/-- A step is read up to its last modifier, with a bound left that still covers the tokens it did not take. -/
theorem step_eq_modifiers {n : Nat} {ts : List Token} {e : Expr} (h : Step B ts e) :
    ∀ {c : Cursor}, ts.length ≤ n + 1 → ts.length ≤ N → c.NoCall → c.current.kind ≠ .mark .lbrace →
      ∃ k, n + 1 ≤ k + ts.length ∧ step n block (c.back ts) = modifiers k e c := by
  induction h with
  | value h =>
    intro c hn _ hcall hc
    have := (opens_of_value h).length_pos
    exact ⟨n, by omega, bind_of_ok _ (exprBlock_value h hn hcall hc)⟩
  | router h hb =>
    intro c hn hN _ _
    have := (opens_of_value h).length_pos
    rw [List.length_append] at hn hN ⊢
    exact ⟨n, by omega, bind_of_ok _ (exprBlock_router hblock hbrace h hb (by omega) (by omega))⟩
  | @bind ts e bind name us args _ hbind hname hargs ih =>
    intro c hn hN _ _
    simp only [List.length_append, List.length_cons] at hn hN ⊢
    obtain ⟨k, hk, hstep⟩ := ih (c := c.back (bind :: name :: us)) (by omega) (by omega) (by simp [NoCall, hbind])
      (by simp [hbind])
    obtain ⟨k, rfl⟩ : ∃ j, k = j + 1 := ⟨k - 1, by omega⟩
    refine ⟨k, by omega, ?_⟩
    have hcall := call_expr_accepts k name.text c hargs (by omega)
    rw [back_append, hstep, modifiers, isAt_bind, if_pos (by simp [hbind]), next_back _ _ _ (by simp [hbind]),
      expectIdentifier_back _ _ _ _ hname, bind_of_ok _ hcall]

omit hblock hbrace in
theorem modifiers_end (k : Nat) (e : Expr) {c : Cursor} (hc : c.current.kind ≠ .mark .bind) :
    modifiers k e c = .ok (e, c) := by
  cases k with
  | zero => rfl
  | succ k =>
    rw [modifiers, isAt_bind, if_neg (by simpa using hc)]
    rfl

theorem step_accepts {n : Nat} {ts : List Token} {e : Expr} {c : Cursor} (h : Step B ts e) (hn : ts.length ≤ n + 1)
    (hN : ts.length ≤ N) (hc : c.StepEnd) : step n block (c.back ts) = .ok (e, c) := by
  obtain ⟨k, -, hstep⟩ := step_eq_modifiers hblock hbrace h hn hN hc.noCall hc.noBlock
  rw [hstep, modifiers_end k e hc.noBind]

theorem moreSteps_accepts {bracketed : Bool} {ts : List Token} {es : List Expr} (h : MoreSteps B bracketed ts es) :
    ∀ {m : Nat} {c : Cursor}, ts.length ≤ m → ts.length ≤ N → c.PipelineEnd bracketed →
      moreSteps block bracketed m (c.back ts) = .ok (es, c) := by
  induction h with
  | nil =>
    intro m c _ _ hc
    cases m with
    | zero => rfl
    | succ m =>
      rw [moreSteps_succ, back_nil, bind_of_ok _ (joinLines_end hc), isAt_bind, if_neg (by simpa using hc.noPipe)]
      rfl
  | @cons nl pipe nl' ts us e es hnl hpipe hnl' he hes ih =>
    intro m c hm hN hc
    simp only [List.length_append, List.length_cons] at hm hN
    obtain ⟨m, rfl⟩ : ∃ k, m = k + 1 := ⟨m - 1, by omega⟩
    have hline : ((c.back us).back ts).current.kind ≠ .newline := (opens_of_step he).current_ne _ rfl
    rw [moreSteps_succ, back_append, bind_of_ok _ (joinLines_break hnl (by simpa using hpipe)), isAt_bind,
      if_pos (by simp [hpipe]), next_back _ _ _ (by simp [hpipe]), back_append, back_append,
      bind_of_ok _ (skipNewlines_break hnl' hline),
      bind_of_ok _ (step_accepts hblock hbrace he (by omega) (by omega) (stepEnd_of_moreSteps hes hc.toStepEnd)),
      bind_of_ok _ (ih (by omega) (by omega) hc)]
    rfl

theorem pipeline_accepts {bracketed : Bool} {n : Nat} {ts : List Token} {es : List Expr} {c : Cursor}
    (h : Pipeline B bracketed ts es) (hn : ts.length ≤ n + 1) (hN : ts.length ≤ N) (hc : c.PipelineEnd bracketed) :
    pipeline n block bracketed (c.back ts) = .ok (es, c) := by
  obtain ⟨he, hes⟩ := h
  have hpos := (opens_of_step he).length_pos
  rw [List.length_append] at hn hN
  rw [pipeline, back_append,
    bind_of_ok _ (step_accepts hblock hbrace he (by omega) (by omega) (stepEnd_of_moreSteps hes hc.toStepEnd)),
    bind_of_ok _ (moreSteps_accepts hblock hbrace hes (by omega) (by omega) hc)]
  rfl

theorem arm_case {n : Nat} {t arrow : Token} {ts us : List Token} {condition : Expr} {action : List Expr} {c : Cursor}
    (hasFallback : Bool) (ht : t.kind = .keyword .caseKw) (hcondition : Value ts condition)
    (harrow : arrow.kind = .mark .arrow) (haction : Pipeline B true us action) (hts : ts.length ≤ n + 1)
    (hus : us.length ≤ n + 1) (hN : us.length ≤ N) (hc : c.PipelineEnd true) :
    arm n block hasFallback (c.back (t :: (ts ++ arrow :: us))) = .ok (.case condition action, c) := by
  simp only [arm, current_bind, current_back_cons, ht]
  rw [next_back _ _ _ (by simp [ht]), back_append,
    bind_of_ok _ (expr_accepts n hcondition hts (by simp [NoCall, harrow])),
    expect_back _ _ _ _ harrow (by simp), bind_of_ok _ (pipeline_accepts hblock hbrace haction hus hN hc)]
  rfl

theorem arm_fallback {n : Nat} {t arrow : Token} {us : List Token} {action : List Expr} {c : Cursor}
    (ht : t.kind = .keyword .defaultKw) (harrow : arrow.kind = .mark .arrow) (haction : Pipeline B true us action)
    (hus : us.length ≤ n + 1) (hN : us.length ≤ N) (hc : c.PipelineEnd true) :
    arm n block false (c.back (t :: arrow :: us)) = .ok (.fallback action, c) := by
  simp only [arm, current_bind, current_back_cons, ht]
  rw [if_neg (by simp), next_back _ _ _ (by simp [ht]), expect_back _ _ _ _ harrow (by simp),
    bind_of_ok _ (pipeline_accepts hblock hbrace haction hus hN hc)]
  rfl

theorem arms_accepts {ts : List Token} {b : RouterBlock} (h : Arms B ts b) :
    ∀ {m : Nat} {hasFallback : Bool} {nl : List Token} {c : Cursor}, Newlines nl → ts.length < m → ts.length ≤ N →
      (hasFallback = true → b.fallback = none) → c.current.kind = .mark .rbrace →
      arms block m hasFallback (c.back (nl ++ ts)) = .ok (b, c) := by
  induction h with
  | nil =>
    intro m hasFallback nl c hnl hm _ _ hc
    obtain ⟨m, rfl⟩ : ∃ k, m = k + 1 := ⟨m - 1, by simp at hm; omega⟩
    rw [arms, back_append, back_nil, skipNewlines_back_bind _ hnl (by simp [hc]), isAt_bind, if_pos (by simp [hc])]
    rfl
  | @case t ts arrow us vs ws condition action cases fallback ht hcondition harrow haction hvs hws ih =>
    intro m hasFallback nl c hnl hm hN hfallback hc
    simp only [List.length_append, List.length_cons] at hm hN
    obtain ⟨m, rfl⟩ : ∃ k, m = k + 1 := ⟨m - 1, by omega⟩
    have hnext := armNext_of_arms hws (.inr (.inr hc))
    have harm := arm_case hblock hbrace (n := m) hasFallback ht hcondition harrow haction (by omega) (by omega)
      (by omega) (pipelineEnd_of_armEnd hvs hnext)
    have hcons := arms_cons hnl (by simp [ht]) (by simp [ht]) harm hvs hnext fun nl' hnl' =>
      ih hnl' (by omega) (by omega) (by simpa [Arm.isFallback] using hfallback) hc
    simpa [Arm.before] using hcons
  | @fallback t arrow us vs ws action cases ht harrow haction hvs hws ih =>
    intro m hasFallback nl c hnl hm hN hfallback hc
    simp only [List.length_append, List.length_cons] at hm hN
    obtain ⟨m, rfl⟩ : ∃ k, m = k + 1 := ⟨m - 1, by omega⟩
    obtain rfl : hasFallback = false := by simpa using hfallback
    have hnext := armNext_of_arms hws (.inr (.inr hc))
    have harm := arm_fallback hblock hbrace (n := m) ht harrow haction (by omega) (by omega)
      (pipelineEnd_of_armEnd hvs hnext)
    have hcons := arms_cons hnl (by simp [ht]) (by simp [ht]) harm hvs hnext fun nl' hnl' =>
      ih hnl' (by omega) (by omega) (fun _ => rfl) hc
    simpa [Arm.before] using hcons

theorem routerBlockWith_accepts {n : Nat} {ts : List Token} {b : RouterBlock} {c : Cursor}
    (h : Bracketed .lbrace .rbrace (Arms B) ts b) (hn : ts.length ≤ n + 1) (hN : ts.length ≤ N + 1) :
    routerBlockWith n block (c.back ts) = .ok (b, c) := by
  cases h with
  | @mk o nl us t _ ho hnl harms ht =>
  simp only [List.length_cons, List.length_append] at hn hN
  rw [routerBlockWith, expect_back _ _ _ _ ho (by simp), ← List.append_assoc, back_append,
    bind_of_ok _ (arms_accepts hblock hbrace harms hnl (by omega) (by omega) (by simp) (by simpa using ht)),
    expect_back _ _ _ _ ht (by simp)]
  rfl

end Nested

theorem brace_of_block {ts : List Token} {b : RouterBlock} (h : Block ts b) :
    ∃ t us, ts = t :: us ∧ t.kind = .mark .lbrace := by
  obtain ⟨h⟩ := h
  exact h.head

theorem routerBlockTo_accepts (n : Nat) {ts : List Token} {b : RouterBlock} (c : Cursor) (h : Block ts b)
    (hn : ts.length ≤ n) : routerBlockTo n (c.back ts) = .ok (b, c) := by
  induction n generalizing ts b c with
  | zero =>
    obtain ⟨t, us, rfl, -⟩ := brace_of_block h
    simp at hn
  | succ n ih =>
    obtain ⟨h⟩ := h
    exact routerBlockWith_accepts ih (fun _ _ => brace_of_block) h hn hn

theorem routerBlock_accepts (n : Nat) {ts : List Token} {b : RouterBlock} (c : Cursor) (h : Block ts b)
    (hn : ts.length ≤ n + 1) : routerBlock n (c.back ts) = .ok (b, c) := routerBlockTo_accepts (n + 1) c h hn

theorem step_block_accepts {n : Nat} {ts : List Token} {e : Expr} {c : Cursor} (h : Step Block ts e)
    (hn : ts.length ≤ n + 1) (hc : c.StepEnd) : step n (routerBlock n) (c.back ts) = .ok (e, c) :=
  step_accepts (routerBlock_accepts n) (fun _ _ => brace_of_block) h hn hn hc

theorem pipeline_block_accepts {bracketed : Bool} {n : Nat} {ts : List Token} {es : List Expr} {c : Cursor}
    (h : Pipeline Block bracketed ts es) (hn : ts.length ≤ n + 1) (hc : c.PipelineEnd bracketed) :
    pipeline n (routerBlock n) bracketed (c.back ts) = .ok (es, c) :=
  pipeline_accepts (routerBlock_accepts n) (fun _ _ => brace_of_block) h hn hn hc

end Parser

end ChainCompiler
