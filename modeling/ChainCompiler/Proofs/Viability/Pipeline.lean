import ChainCompiler.Proofs.Soundness.Pipeline
import ChainCompiler.Proofs.Viability.Expr

/-! Where the parsers of pipelines and router blocks fail, what they read can be completed. No list of names is open
there but those of an expression, so that nothing has to be said of the brackets around. -/

namespace ChainCompiler.Parser

open Grammar

abbrev Anywhere (_ : Nesting) : Prop := True

theorem atValue_after_keyword {t : Token} {k : Keyword} (ht : t.kind = .keyword k) (n : Nesting) :
    (n.reads [t]).AtValue := by
  rw [Nesting.reads_cons, Nesting.reads_nil, Nesting.AtValue, Nesting.last_read (by simp [ht]), ht]
  simp

theorem atValue_after_break {bracketed : Bool} {nl : List Token} {t : Token} {m : Mark} (hnl : Break bracketed nl)
    (ht : t.kind = .mark m) (hm : m ≠ .rparen) (n : Nesting) : (n.reads (t :: nl)).AtValue := by
  rw [Nesting.reads_cons, Nesting.reads_newlines hnl.1]
  exact Nesting.atValue_read ht hm

section Nested

variable {block : Parser RouterBlock} {B : Phrases RouterBlock}

theorem step_of_identifier {t : Token} (ht : t.kind = .identifier) : Step B [t] (ofName t.text) :=
  .value (value_of_identifier ht)

theorem pipeline_of_step {bracketed : Bool} {ts : List Token} {e : Expr} (h : Step B ts e) :
    Pipeline B bracketed ts [e] := by
  have hpipeline : Pipeline B bracketed (ts ++ []) [e] := .mk h .nil
  rwa [List.append_nil] at hpipeline

theorem pipeline_of_identifier {bracketed : Bool} {t : Token} (ht : t.kind = .identifier) :
    Pipeline B bracketed [t] [ofName t.text] :=
  pipeline_of_step (step_of_identifier ht)

theorem modifiers_stalls {ts : List Token} :
    ∀ {n : Nat} {e : Expr}, Step B ts e →
      Stalls (modifiers n e) (Completable Anywhere fun us => ∃ e', Step B (ts ++ us) e') := by
  intro n
  induction n generalizing ts with
  | zero => exact fun _ => .pure
  | succ n ih =>
    intro e he
    rw [modifiers]
    refine .ifAt (by simp) (fun bind hbind => ?_) .pure
    refine .bind (expectIdentifier_reads _) (.expectIdentifier (.of_viable ?_)) ?_
    · refine .complete [.identifier, .mark .lparen, .mark .rparen] rfl fun us hus => ?_
      simp only [List.map_eq_cons_iff, List.map_eq_nil_iff] at hus
      obtain ⟨name, _, rfl, hname, o, _, rfl, ho, c, _, rfl, hc, rfl⟩ := hus
      exact ⟨_, .bind he hbind hname (args_nil ho hc)⟩
    rintro _ _ ⟨name, rfl, hname, rfl⟩
    have hcall := call_stalls (expr_reads n) (expr_stalls n) n name.text
    refine .bind (call_reads (expr_reads n) n _) (hcall.imp fun us hus => ?_) ?_
    · refine hus.2.behind [bind, name] (fun _ _ => trivial) ?_
      rintro vs ⟨args, hargs⟩
      exact ⟨_, .bind he hbind hname hargs⟩
    rintro us _ ⟨args, hargs, rfl⟩
    refine (ih (.bind he hbind hname hargs)).imp fun vs hvs => ?_
    refine hvs.behind (bind :: name :: us) (fun _ _ => trivial) fun ws hws => ?_
    simpa using hws

variable (hreads : Reads block B) (hstalls : Stalls block (Completable Anywhere fun ts => ∃ b, B ts b))
include hreads hstalls

theorem exprBlock_stalls (n : Nat) :
    Stalls (exprBlock n block) (Completable Nesting.AtValue fun ts => ∃ e, Step B ts e) := by
  rw [exprBlock]
  refine .bind (expr_reads n) ((expr_stalls n).imp fun us hus => ?_) fun us e he => ?_
  · refine hus.2.behind [] (fun _ hn => hn) ?_
    rintro vs ⟨e, he⟩
    exact ⟨e, .value he⟩
  cases e with
  | call m =>
    refine .peek (fun _ => ⟨_, rfl⟩) fun b => ?_
    split
    · next hrouter =>
      refine .bind hreads (hstalls.imp fun vs hvs => ?_) fun _ _ _ => .pure
      refine hvs.behind us (fun _ _ => trivial) ?_
      rintro ws ⟨b, hb⟩
      obtain ⟨name, args, router⟩ := m
      obtain rfl : router = none := router_of_value he
      simp only [Bool.and_eq_true, decide_eq_true_eq] at hrouter
      obtain ⟨rfl, -⟩ := hrouter
      exact ⟨_, .router he hb⟩
    · exact .pure
  | _ => exact .pure

theorem step_stalls (n : Nat) : Stalls (step n block) (Completable Nesting.AtValue fun ts => ∃ e, Step B ts e) := by
  rw [step]
  refine .bind (exprBlock_reads hreads n) (exprBlock_stalls hreads hstalls n) fun us e he => ?_
  refine (modifiers_stalls he).imp fun vs hvs => ?_
  exact hvs.behind us (fun _ _ => trivial) fun _ hws => hws

theorem moreSteps_stalls (bracketed : Bool) (n : Nat) :
    Stalls (moreSteps block bracketed n) (Completable Anywhere fun ts => ∃ es, MoreSteps B bracketed ts es) := by
  induction n with
  | zero => exact .pure
  | succ n ih =>
    rw [moreSteps_succ]
    refine .bind (break_reads joinLines_reads bracketed) (.ofBreak .joinLines) fun nl _ hnl => ?_
    refine .ifAt (by simp) (fun pipe hpipe => ?_) .pure
    refine .bind (break_reads skipNewlines_reads bracketed) (.ofBreak .skipNewlines) fun nl' _ hnl' => ?_
    have hvalue : ∀ n : Nesting, (n.reads (nl ++ pipe :: nl')).AtValue := by
      intro n
      rw [Nesting.reads_append]
      exact atValue_after_break hnl' hpipe (by decide) _
    refine .bind (step_reads hreads n) ((step_stalls hreads hstalls n).imp fun us hus => ?_) fun us e he => ?_
    · rw [← List.cons_append, ← List.append_assoc]
      refine hus.behind _ (fun m _ => hvalue m) ?_
      rintro vs ⟨e, he⟩
      have hmore : MoreSteps B bracketed (nl ++ pipe :: (nl' ++ (vs ++ []))) [e] := .cons hnl hpipe hnl' he .nil
      exact ⟨[e], by simpa using hmore⟩
    · refine .bind (moreSteps_reads hreads bracketed n) (ih.imp fun vs hvs => ?_) fun _ _ _ => .pure
      rw [← List.append_assoc nl', ← List.cons_append, ← List.append_assoc]
      refine hvs.behind _ (fun _ _ => trivial) ?_
      rintro ws ⟨es, hes⟩
      have hmore : MoreSteps B bracketed (nl ++ pipe :: (nl' ++ (us ++ ws))) (e :: es) := .cons hnl hpipe hnl' he hes
      exact ⟨e :: es, by simpa using hmore⟩

theorem pipeline_stalls (n : Nat) (bracketed : Bool) :
    Stalls (pipeline n block bracketed) (Completable Nesting.AtValue fun ts => ∃ es, Pipeline B bracketed ts es) := by
  rw [pipeline]
  refine .bind (step_reads hreads n) ((step_stalls hreads hstalls n).imp fun us hus => ?_) fun us e he => ?_
  · refine hus.behind [] (fun _ hn => hn) ?_
    rintro vs ⟨e, he⟩
    exact ⟨[e], pipeline_of_step he⟩
  · have hmore := moreSteps_stalls hreads hstalls bracketed n
    refine .bind (moreSteps_reads hreads bracketed n) (hmore.imp fun vs hvs => ?_) fun _ _ _ => .pure
    refine hvs.behind us (fun _ _ => trivial) ?_
    rintro ws ⟨es, hes⟩
    exact ⟨e :: es, .mk he hes⟩

end Nested

/-- Arms that may come after others, which have a fallback among them or not. -/
def FurtherArms (B : Phrases RouterBlock) (hasFallback : Bool) (ts : List Token) : Prop :=
  ∃ b, Arms B ts b ∧ (hasFallback = true → b.fallback = none)

def RestOfArms (B : Phrases RouterBlock) (hasFallback : Bool) (ts : List Token) : Prop :=
  ∃ nl us, ts = nl ++ us ∧ Newlines nl ∧ FurtherArms B hasFallback us

section Arms

variable {B : Phrases RouterBlock} {hasFallback : Bool} {t arrow : Token} {ts us : List Token} {action : List Expr}

theorem FurtherArms.nil : FurtherArms B hasFallback [] := ⟨_, .nil, fun _ => rfl⟩

/-- A block without arms. -/
theorem viable_block : Viable (fun ts => ∃ b, Bracketed .lbrace .rbrace (Arms B) ts b) [] := by
  refine .complete [.mark .lbrace, .mark .rbrace] rfl fun us hus => ?_
  simp only [List.map_eq_cons_iff, List.map_eq_nil_iff] at hus
  obtain ⟨o, _, rfl, ho, c, _, rfl, hc, rfl⟩ := hus
  exact ⟨_, .mk ho newlines_nil Arms.nil hc⟩

theorem FurtherArms.case {condition : Expr} (ht : t.kind = .keyword .caseKw) (hcondition : Value ts condition)
    (harrow : arrow.kind = .mark .arrow) (haction : Pipeline B true us action) :
    FurtherArms B hasFallback (t :: (ts ++ arrow :: us)) := by
  have harms := Arms.case ht hcondition harrow haction (.plain newlines_nil) .nil
  exact ⟨_, by simpa using harms, fun _ => rfl⟩

theorem FurtherArms.fallback (ht : t.kind = .keyword .defaultKw) (harrow : arrow.kind = .mark .arrow)
    (haction : Pipeline B true us action) : FurtherArms B false (t :: arrow :: us) := by
  have harms := Arms.fallback ht harrow haction (.plain newlines_nil) .nil
  exact ⟨_, by simpa using harms, by simp⟩

/-- An arm, with or without a comma, in front of the rest of the arms. -/
theorem RestOfArms.cons {a : Arm} {vs : List Token} (hfirst : hasFallback = true → a.isFallback = false)
    (harm : ∀ vs ws b, ArmEnd vs → Arms B ws b → (a.isFallback = true → b.fallback = none) →
      Arms B (ts ++ (vs ++ ws)) (a.before b))
    (hus : us = [] ∨ ∃ t, us = [t] ∧ t.kind = .mark .comma) (h : RestOfArms B (hasFallback || a.isFallback) vs) :
    FurtherArms B hasFallback (ts ++ (us ++ vs)) := by
  obtain ⟨nl, ws, rfl, hnl, b, hb, hlast⟩ := h
  have hend : ArmEnd (us ++ nl) := by
    rcases hus with rfl | ⟨t, rfl, ht⟩
    · exact .plain hnl
    · exact .comma ht hnl
  have harms := harm _ _ _ hend hb fun ha => hlast (by simp [ha])
  refine ⟨a.before b, by simpa using harms, fun hf => ?_⟩
  have ha := hfirst hf
  cases a with
  | case condition action => exact hlast (by simp [hf])
  | fallback action => cases ha

end Arms

section Blocks

variable {block : Parser RouterBlock} {B : Phrases RouterBlock} (hreads : Reads block B)
  (hstalls : Stalls block (Completable Anywhere fun ts => ∃ b, B ts b))
include hreads hstalls

/-- A case, after its keyword. -/
theorem case_stalls (n : Nat) (hasFallback : Bool) {t : Token} (ht : t.kind = .keyword .caseKw) :
    Stalls (do
      let condition ← expr n
      let _ ← expect (.mark .arrow) .caseArrow
      return Arm.case condition (← pipeline n block true))
      fun ts => Completable Anywhere (FurtherArms B hasFallback) (t :: ts) := by
  refine .bind (expr_reads n) ((expr_stalls n).imp fun us hus => ?_) fun us condition hcondition => ?_
  · refine hus.2.behind_then [t] (fun m _ => atValue_after_keyword ht m) [.mark .arrow, .identifier] rfl ?_
    rintro vs ws ⟨condition, hcondition⟩ hws
    simp only [List.map_eq_cons_iff, List.map_eq_nil_iff] at hws
    obtain ⟨arrow, _, rfl, harrow, v, _, rfl, hv, rfl⟩ := hws
    exact .case ht hcondition harrow (pipeline_of_identifier hv)
  refine .bind (expect_reads (by simp) _) (.expect (.of_viable ?_)) ?_
  · refine .complete [.mark .arrow, .identifier] rfl fun ws hws => ?_
    simp only [List.map_eq_cons_iff, List.map_eq_nil_iff] at hws
    obtain ⟨arrow, _, rfl, harrow, v, _, rfl, hv, rfl⟩ := hws
    rw [List.append_nil]
    exact .case ht hcondition harrow (pipeline_of_identifier hv)
  rintro _ arrow ⟨rfl, harrow⟩
  refine .bind (pipeline_reads hreads n true) ((pipeline_stalls hreads hstalls n true).imp fun vs hvs => ?_)
    fun _ _ _ => .pure
  rw [← List.append_assoc us, ← List.cons_append]
  refine hvs.behind _ (fun m _ => ?_) ?_
  · rw [← List.cons_append, Nesting.reads_append]
    exact Nesting.atValue_read harrow (by decide)
  · rintro ws ⟨action, haction⟩
    have hcase : FurtherArms B hasFallback (t :: (us ++ arrow :: ws)) := .case ht hcondition harrow haction
    simpa using hcase

/-- The fallback, after its keyword. -/
theorem fallback_stalls (n : Nat) {t : Token} (ht : t.kind = .keyword .defaultKw) :
    Stalls (do
      let _ ← expect (.mark .arrow) .defaultArrow
      return Arm.fallback (← pipeline n block true))
      fun ts => Completable Anywhere (FurtherArms B false) (t :: ts) := by
  refine .bind (expect_reads (by simp) _) (.expect (.of_viable ?_)) ?_
  · refine .complete [.mark .arrow, .identifier] rfl fun ws hws => ?_
    simp only [List.map_eq_cons_iff, List.map_eq_nil_iff] at hws
    obtain ⟨arrow, _, rfl, harrow, v, _, rfl, hv, rfl⟩ := hws
    exact .fallback ht harrow (pipeline_of_identifier hv)
  rintro _ arrow ⟨rfl, harrow⟩
  refine .bind (pipeline_reads hreads n true) ((pipeline_stalls hreads hstalls n true).imp fun vs hvs => ?_)
    fun _ _ _ => .pure
  refine hvs.behind [t, arrow] (fun m _ => Nesting.atValue_read harrow (by decide)) ?_
  rintro ws ⟨action, haction⟩
  exact .fallback ht harrow haction

theorem arm_stalls (n : Nat) (hasFallback : Bool) :
    Stalls (arm n block hasFallback) (Completable Anywhere (FurtherArms B hasFallback)) := by
  intro c want t hc hp
  have hnil : Completable Anywhere (FurtherArms B hasFallback) [] := .of_viable (.of .nil)
  rw [arm, current_bind] at hp
  cases hk : c.current.kind with
  | keyword k =>
    rw [hk] at hp
    cases k with
    | caseKw => exact Stalls.next_bind (by simp [hk]) (case_stalls hreads hstalls n hasFallback hk) hc hp
    | defaultKw =>
      cases hasFallback with
      | true => cases hp
      | false => exact Stalls.next_bind (by simp [hk]) (fallback_stalls hreads hstalls n hk) hc hp
    | _ => exact Stalls.fail hnil hc hp
  | _ =>
    rw [hk] at hp
    exact Stalls.fail hnil hc hp

theorem arms_stalls (n : Nat) (hasFallback : Bool) :
    Stalls (arms block n hasFallback) (Completable Anywhere (RestOfArms B hasFallback)) := by
  induction n generalizing hasFallback with
  | zero => exact .fail (.of_viable (.of ⟨[], [], rfl, newlines_nil, .nil⟩))
  | succ n ih =>
    rw [arms]
    refine .bind skipNewlines_reads .skipNewlines fun nl _ hnl => .peek (fun _ => ⟨_, rfl⟩) fun b => ?_
    split
    · exact .pure
    refine .bind (arm_reads hreads n hasFallback) ((arm_stalls hreads hstalls n hasFallback).imp fun us hus => ?_) ?_
    · exact hus.behind nl (fun _ _ => trivial) fun vs hvs => ⟨nl, vs, rfl, hnl, hvs⟩
    rintro ts a ⟨hfirst, harm⟩
    -- with or without the comma, what follows is read by the same call
    have hmore : ∀ us vs, (us = [] ∨ ∃ t, us = [t] ∧ t.kind = .mark .comma) →
        Completable Anywhere (RestOfArms B (hasFallback || a.isFallback)) vs →
        Completable Anywhere (RestOfArms B hasFallback) (nl ++ (ts ++ (us ++ vs))) := by
      intro us vs hus hvs
      rw [← List.append_assoc ts, ← List.append_assoc]
      refine hvs.behind _ (fun _ _ => trivial) fun ws hws => ⟨nl, ts ++ (us ++ ws), by simp, hnl, ?_⟩
      exact RestOfArms.cons hfirst harm hus hws
    refine .ifAt (by simp) (fun t ht => ?_) ?_
    · refine .bind (arms_reads hreads n _) ((ih _).imp fun vs hvs => ?_) fun _ _ _ => .pure
      exact hmore [t] vs (.inr ⟨t, rfl, ht⟩) hvs
    · refine .bind (arms_reads hreads n _) ((ih _).imp fun vs hvs => ?_) fun _ _ _ => .pure
      exact hmore [] vs (.inl rfl) hvs

theorem routerBlockWith_stalls (n : Nat) :
    Stalls (routerBlockWith n block)
      (Completable Anywhere fun ts => ∃ b, Bracketed .lbrace .rbrace (Arms B) ts b) := by
  rw [routerBlockWith]
  refine .bind (expect_reads (by simp) _) (.expect (.of_viable viable_block)) ?_
  rintro _ o ⟨rfl, ho⟩
  refine .bind (arms_reads hreads _ _) ((arms_stalls hreads hstalls _ _).imp fun us hus => ?_) ?_
  · refine hus.behind_then [o] (fun _ _ => trivial) [.mark .rbrace] rfl ?_
    rintro _ ws ⟨nl, vs, rfl, hnl, b, hb, -⟩ hws
    obtain ⟨c, rfl, hc⟩ := List.map_eq_singleton_iff.1 hws
    rw [List.append_assoc]
    exact ⟨b, .mk ho hnl hb hc⟩
  rintro _ b ⟨⟨nl, us, rfl, hnl, hb⟩, -⟩
  refine .bind (expect_reads (by simp) _) (.expect (.of_viable ?_)) fun _ _ _ => .pure
  refine .complete [.mark .rbrace] rfl fun ws hws => ?_
  obtain ⟨c, rfl, hc⟩ := List.map_eq_singleton_iff.1 hws
  rw [List.append_nil, List.append_assoc, List.append_assoc]
  exact ⟨b, .mk ho hnl hb hc⟩

end Blocks

theorem routerBlockTo_stalls (n : Nat) :
    Stalls (routerBlockTo n) (Completable Anywhere fun ts => ∃ b, Block ts b) := by
  have hblock : ∀ us, (∃ b, Bracketed .lbrace .rbrace (Arms Block) us b) → ∃ b, Block us b := by
    rintro us ⟨b, hb⟩
    exact ⟨b, .of hb⟩
  induction n with
  | zero => exact .fail (.of_viable (viable_block.imp [] hblock))
  | succ n ih =>
    refine (routerBlockWith_stalls (routerBlockTo_reads n) ih n).imp fun ts hts => ?_
    exact hts.behind [] (fun _ hn => hn) hblock

theorem routerBlock_stalls (n : Nat) : Stalls (routerBlock n) (Completable Anywhere fun ts => ∃ b, Block ts b) :=
  routerBlockTo_stalls (n + 1)

end ChainCompiler.Parser
