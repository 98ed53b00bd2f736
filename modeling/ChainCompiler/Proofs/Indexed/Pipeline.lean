import ChainCompiler.Proofs.Indexed.Expr
import ChainCompiler.Proofs.Shift.Pipeline

/-! The machine follows the parsers of pipelines and router blocks. -/

namespace ChainCompiler.Follows

variable {x : Input} {ℓ n i : Nat}

theorem modifiers (n : Nat) (e : Expr) (hi : i ≤ x.last) (hn : x.last - i ≤ n) :
    Follows x 0 (Parser.modifiers n e) (Indexed.modifiers e) i := by
  induction n generalizing e i with
  | zero =>
    obtain rfl : i = x.last := by omega
    have hend : (x.place x.last).current.kind ≠ .mark .bind := by simp [x.place_last, x.kind_eof]
    refine .of_succ (Indexed.modifiers.eq_2 e) ?_
    refine (Follows.pure e).of_eq rfl fun s hs hle n => ?_
    rw [Indexed.bind_of_ok _ (Indexed.isAt_apply hle _), hs, if_neg (by simpa using hend)]
  | succ n ih =>
    refine .of_succ (Indexed.modifiers.eq_2 e) ?_
    rw [Parser.modifiers]
    refine .ifAt (fun hbind => ?_) fun _ => .pure e
    refine (Follows.next (by simp [hbind])).bind fun _ i₁ hi₁ hlt₁ => ?_
    refine (Follows.expectIdentifier _).bind fun name i₂ hi₂ hlt₂ => ?_
    have hinner : FollowsBelow x (x.last - i₂) (Parser.expr n) Indexed.expr := fun j hj hlt => expr hj (by omega)
    refine (call hinner name hi₂ (Nat.le_refl _) (by omega)).bind fun m i₃ hi₃ hlt₃ => ?_
    exact ih _ hi₃ (by omega)

theorem breakBefore (bracketed : Bool) (hi : i ≤ x.last) :
    Follows x 0 (if bracketed then Parser.joinLines else Pure.pure ()) (Indexed.breakBefore bracketed) i := by
  cases bracketed with
  | true => exact joinLines hi
  | false => exact .pure ()

theorem breakAfter (bracketed : Bool) (hi : i ≤ x.last) :
    Follows x 0 (if bracketed then Parser.skipNewlines else Pure.pure ()) (Indexed.breakAfter bracketed) i := by
  cases bracketed with
  | true => exact skipNewlines hi
  | false => exact .pure ()

section Nested

variable {block : Parser RouterBlock} (h : FollowsBelow x ℓ block Indexed.routerBlock)
include h

theorem exprBlock (hi : i ≤ x.last) (hℓ : x.last - i ≤ ℓ) (hn : x.last - i ≤ n) :
    Follows x 1 (Parser.exprBlock n block) Indexed.exprBlock i := by
  refine .of_succ Indexed.exprBlock.eq_2 ?_
  rw [Parser.exprBlock]
  refine (expr hi hn).bind fun e i₁ hi₁ hlt₁ => ?_
  cases e with
  | call c =>
    by_cases hrouter : c.name = Keyword.router.spelling
    · simp only [hrouter, decide_true, Bool.true_and, if_true]
      refine .ifAt (fun _ => ?_) fun _ => .pure _
      exact (h i₁ hi₁ (by omega)).bind fun _ _ _ _ => .pure _
    · simp only [hrouter, decide_false, Bool.false_and, Bool.false_eq_true, if_false]
      exact .pure _
  | _ => exact .pure _

theorem step (hi : i ≤ x.last) (hℓ : x.last - i ≤ ℓ) (hn : x.last - i ≤ n) :
    Follows x 1 (Parser.step n block) Indexed.step i := by
  refine .of_succ Indexed.step.eq_2 ?_
  rw [Parser.step]
  refine (exprBlock h hi hℓ hn).bind fun e i₁ hi₁ hlt₁ => ?_
  exact modifiers n e hi₁ (by omega)

theorem moreSteps (bracketed : Bool) (n : Nat) (hi : i ≤ x.last) (hℓ : x.last - i ≤ ℓ) (hn : x.last - i ≤ n) :
    Follows x 0 (Parser.moreSteps block bracketed n) (Indexed.moreSteps bracketed) i := by
  induction n generalizing i with
  | zero =>
    -- Only the end of input is left, and there the parser stops under any bound.
    obtain rfl : i = x.last := by omega
    have hend : (x.place x.last).current.kind = .eof := by rw [x.place_last, x.kind_eof]
    have hstop : Follows x 0 (Parser.moreSteps block bracketed 1) (Indexed.moreSteps bracketed) x.last := by
      refine .of_succ (Indexed.moreSteps.eq_2 bracketed) ?_
      rw [Parser.moreSteps_succ]
      refine (breakBefore bracketed hi).bind fun _ i₁ hi₁ hle₁ => ?_
      obtain rfl : i₁ = x.last := by omega
      exact .ifAt (fun hpipe => by simp [hend] at hpipe) fun _ => .pure _
    refine hstop.of_eq ?_ fun _ _ _ _ => rfl
    rw [Parser.moreSteps_eof block bracketed 0 hend, Parser.moreSteps_eof block bracketed 1 hend]
  | succ n ih =>
    refine .of_succ (Indexed.moreSteps.eq_2 bracketed) ?_
    rw [Parser.moreSteps_succ]
    refine (breakBefore bracketed hi).bind fun _ i₁ hi₁ hle₁ => ?_
    refine .ifAt (fun hpipe => ?_) fun _ => .pure _
    refine (Follows.next (by simp [hpipe])).bind fun _ i₂ hi₂ hlt₂ => ?_
    refine (breakAfter bracketed hi₂).bind fun _ i₃ hi₃ hle₃ => ?_
    refine (step h hi₃ (by omega) (by omega)).bind fun e i₄ hi₄ hlt₄ => ?_
    exact (ih hi₄ (by omega) (by omega)).bind fun _ _ _ _ => .pure _

theorem pipeline (bracketed : Bool) (hi : i ≤ x.last) (hℓ : x.last - i ≤ ℓ) (hn : x.last - i ≤ n) :
    Follows x 1 (Parser.pipeline n block bracketed) (Indexed.pipeline bracketed) i := by
  refine .of_succ (Indexed.pipeline.eq_2 bracketed) ?_
  rw [Parser.pipeline]
  refine (step h hi hℓ hn).bind fun e i₁ hi₁ hlt₁ => ?_
  exact (moreSteps h bracketed n hi₁ (by omega) (by omega)).bind fun _ _ _ _ => .pure _

theorem arm (hasFallback : Bool) (hi : i ≤ x.last) (hℓ : x.last - i ≤ ℓ) (hn : x.last - i ≤ n) :
    Follows x 1 (Parser.arm n block hasFallback) (Indexed.arm hasFallback) i := by
  refine .of_succ (Indexed.arm.eq_2 hasFallback) ?_
  rw [Parser.arm]
  refine .current ?_
  cases hk : (x.place i).current.kind with
  | keyword k =>
    cases k with
    | caseKw =>
      refine (Follows.next (by simp [hk])).bind fun _ i₁ hi₁ hlt₁ => ?_
      refine (expr hi₁ (by omega)).bind fun condition i₂ hi₂ hlt₂ => ?_
      refine (Follows.expect _ (by simp)).bind fun _ i₃ hi₃ hlt₃ => ?_
      exact (pipeline h true hi₃ (by omega) (by omega)).bind fun _ _ _ _ => .pure _
    | defaultKw =>
      cases hasFallback with
      | true => exact .duplicate_bind _ _ _ _ _
      | false =>
        refine (Follows.next (by simp [hk])).bind fun _ i₁ hi₁ hlt₁ => ?_
        refine (Follows.expect _ (by simp)).bind fun _ i₂ hi₂ hlt₂ => ?_
        exact (pipeline h true hi₂ (by omega) (by omega)).bind fun _ _ _ _ => .pure _
    | _ => exact .fail _
  | _ => exact .fail _

theorem arms (n : Nat) (hasFallback : Bool) (hi : i ≤ x.last) (hℓ : x.last - i ≤ ℓ) (hn : x.last - i < n) :
    Follows x 0 (Parser.arms block n hasFallback) (Indexed.arms hasFallback) i := by
  induction n generalizing i hasFallback with
  | zero => omega
  | succ n ih =>
    refine .of_succ (Indexed.arms.eq_2 hasFallback) ?_
    rw [Parser.arms]
    refine (Follows.skipNewlines hi).bind fun _ i₁ hi₁ hle₁ => ?_
    refine .ifAt (fun _ => .pure _) fun _ => ?_
    refine (arm h hasFallback hi₁ (by omega) (by omega)).bind fun a i₂ hi₂ hlt₂ => ?_
    have hmore : ∀ i₃ ≤ x.last, i₂ ≤ i₃ → Follows x 0
        (Parser.arms block n (hasFallback || a.isFallback) >>= fun b => Pure.pure (a.before b))
        (fun m => Indexed.arms (hasFallback || a.isFallback) m >>= fun b => Pure.pure (a.before b)) i₃ :=
      fun i₃ hi₃ hle₃ => (ih _ hi₃ (by omega) (by omega)).bind fun _ _ _ _ => .pure _
    refine .ifAt (fun hcomma => ?_) fun _ => hmore i₂ hi₂ (Nat.le_refl _)
    exact (Follows.next (by simp [hcomma])).bind fun _ i₃ hi₃ hlt₃ => hmore i₃ hi₃ (by omega)

theorem routerBlockWith (hi : i ≤ x.last) (hℓ : x.last - i ≤ ℓ) (hn : x.last - i ≤ n) :
    Follows x 1 (Parser.routerBlockWith n block) Indexed.routerBlock i := by
  refine .of_succ Indexed.routerBlock.eq_2 ?_
  rw [Parser.routerBlockWith]
  refine (Follows.expect _ (by simp)).bind fun _ i₁ hi₁ hlt₁ => ?_
  refine (arms h _ false hi₁ (by omega) (by omega)).bind fun b i₂ hi₂ _ => ?_
  exact (Follows.expect _ (by simp)).bind fun _ _ _ _ => .pure _

end Nested

theorem routerBlockTo (n : Nat) (hi : i ≤ x.last) (hn : x.last - i < n) :
    Follows x 1 (Parser.routerBlockTo n) Indexed.routerBlock i := by
  induction n generalizing i with
  | zero => omega
  | succ n ih =>
    have hblock : FollowsBelow x (x.last - i) (Parser.routerBlockTo n) Indexed.routerBlock :=
      fun j hj hlt => ih hj (by omega)
    exact routerBlockWith hblock hi (Nat.le_refl _) (by omega)

theorem routerBlock (hℓ : ℓ ≤ n + 1) : FollowsBelow x ℓ (Parser.routerBlock n) Indexed.routerBlock :=
  fun _ hi hlt => routerBlockTo _ hi (by omega)

end ChainCompiler.Follows
