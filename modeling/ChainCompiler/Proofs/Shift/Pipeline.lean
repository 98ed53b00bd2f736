import ChainCompiler.Proofs.Completeness.Pipeline
import ChainCompiler.Proofs.Shift.Expr

/-! The parsers of pipelines and router blocks track themselves under any two bounds that exceed the tokens left. -/

namespace ChainCompiler

namespace Parser

variable {k ℓ : Nat}

theorem joinLines_tracks {c : Cursor} (hc : c.Closed) : Tracks k 0 (fun u => u) joinLines joinLines c := by
  by_cases hpipe : c.skipNewlines.current.kind = .mark .pipe
  · have hskip : Tracks k 0 (fun u => u) skipNewlines skipNewlines c := .skipNewlines hc
    refine ⟨by simp [joinLines, Cursor.skipNewlines_down, hpipe, moved], fun u c' hu => ?_⟩
    rw [joinLines, if_pos hpipe] at hu
    exact hskip.ahead hu
  · exact .stay hc (by rw [joinLines, if_neg hpipe]) (by simp [joinLines, Cursor.skipNewlines_down, hpipe])

theorem break_tracks {P : Parser Unit} (bracketed : Bool) {c : Cursor} (hc : c.Closed)
    (h : Tracks k 0 (fun u => u) P P c) :
    Tracks k 0 (fun u => u) (if bracketed then P else pure ()) (if bracketed then P else pure ()) c := by
  cases bracketed with
  | true => exact h
  | false => exact .pure hc ()

theorem modifiers_tracks (n : Nat) :
    ∀ (m : Nat) (e : Expr) {c : Cursor}, c.Closed → c.rest.length ≤ n → c.rest.length ≤ m →
      Tracks k 0 (fun e => e) (modifiers n e) (modifiers m e) c := by
  induction n with
  | zero =>
    intro m e c hc hn hm
    have hk := Cursor.current_eof_of_length hc (by omega)
    exact .stay hc rfl (modifiers_end m e (by simp [hk]))
  | succ n ih =>
    intro m e c hc hn hm
    by_cases hbind : c.current.kind = .mark .bind
    · have hadvance := Cursor.length_rest_advance hc (by simp [hbind])
      obtain ⟨m, rfl⟩ : ∃ j, m = j + 1 := ⟨m - 1, by omega⟩
      simp only [modifiers]
      refine .ifAt (fun _ => ?_) fun _ => .pure hc e
      refine (Tracks.next hc (by simp [hbind])).bind fun _ c₁ hc₁ hlen₁ => ?_
      refine (Tracks.expectIdentifier _ hc₁).bind fun name c₂ hc₂ hlen₂ => ?_
      have hinner : TracksBelow k c₂.rest.length (expr n) (expr m) :=
        fun c' hc' hlen => expr_tracks hc' (by omega) (by omega)
      refine (call_tracks hinner name hc₂ (Nat.le_refl _) (by omega) (by omega)).bind fun x c₃ hc₃ hlen₃ => ?_
      exact ih m _ hc₃ (by omega) (by omega)
    · exact .stay hc (modifiers_end _ e hbind) (modifiers_end m e hbind)

/-- Where the input ends, so do the steps, under any bound. -/
theorem moreSteps_eof (block : Parser RouterBlock) (bracketed : Bool) (n : Nat) {c : Cursor}
    (hk : c.current.kind = .eof) : moreSteps block bracketed n c = .ok ([], c) := by
  cases n with
  | zero => rfl
  | succ n =>
    have hjoin : (if bracketed then joinLines else pure ()) c = .ok ((), c) := by
      cases bracketed with
      | true => rw [if_pos rfl, joinLines, Cursor.skipNewlines_of_ne (by simp [hk]), if_neg (by simp [hk])]
      | false => rfl
    rw [moreSteps_succ, bind_of_ok _ hjoin, isAt_bind, if_neg (by simp [hk])]
    rfl

section Nested

variable {block block' : Parser RouterBlock} (h : TracksBelow k ℓ block block')
include h

theorem exprBlock_tracks {n m : Nat} {c : Cursor} (hc : c.Closed) (hℓ : c.rest.length ≤ ℓ) (hn : c.rest.length ≤ n)
    (hm : c.rest.length ≤ m) : Tracks k 1 (fun e => e) (exprBlock n block) (exprBlock m block') c := by
  simp only [exprBlock]
  refine (expr_tracks hc hn hm).bind fun e c₁ hc₁ hlen₁ => ?_
  cases e with
  | call x =>
    refine .isAt (fun _ => ?_) fun _ => ?_
    · by_cases hrouter : x.name = Keyword.router.spelling
      · simp only [hrouter, decide_true, Bool.and_self, if_true]
        refine ((h c₁ hc₁ (by omega)).bind fun b c₂ hc₂ _ => ?_)
        exact .pure hc₂ _
      · simp only [hrouter, decide_false, Bool.false_and, Bool.false_eq_true, if_false]
        exact .pure hc₁ _
    · simp only [Bool.and_false, Bool.false_eq_true, if_false]
      exact .pure hc₁ _
  | _ => exact .pure hc₁ _

theorem step_tracks {n m : Nat} {c : Cursor} (hc : c.Closed) (hℓ : c.rest.length ≤ ℓ) (hn : c.rest.length ≤ n)
    (hm : c.rest.length ≤ m) : Tracks k 1 (fun e => e) (step n block) (step m block') c := by
  simp only [step]
  refine (exprBlock_tracks h hc hℓ hn hm).bind fun e c₁ hc₁ hlen₁ => ?_
  exact modifiers_tracks n m e hc₁ (by omega) (by omega)

theorem moreSteps_tracks (bracketed : Bool) (n : Nat) :
    ∀ (m : Nat) {c : Cursor}, c.Closed → c.rest.length ≤ ℓ → c.rest.length ≤ n → c.rest.length ≤ m →
      Tracks k 0 (fun es => es) (moreSteps block bracketed n) (moreSteps block' bracketed m) c := by
  induction n with
  | zero =>
    intro m c hc _ hn hm
    have hk := Cursor.current_eof_of_length hc (by omega)
    exact .stay hc rfl (moreSteps_eof block' bracketed m hk)
  | succ n ih =>
    intro m c hc hℓ hn hm
    cases m with
    | zero =>
      have hk := Cursor.current_eof_of_length hc (by omega)
      exact .stay hc (moreSteps_eof block bracketed _ hk) rfl
    | succ m =>
      simp only [moreSteps_succ]
      refine (break_tracks bracketed hc (joinLines_tracks hc)).bind fun _ c₁ hc₁ hlen₁ => ?_
      refine .ifAt (fun hpipe => ?_) fun _ => .pure hc₁ _
      refine (Tracks.next hc₁ (by simp [hpipe])).bind fun _ c₂ hc₂ hlen₂ => ?_
      refine (break_tracks bracketed hc₂ (.skipNewlines hc₂)).bind fun _ c₃ hc₃ hlen₃ => ?_
      refine (step_tracks h hc₃ (by omega) (by omega) (by omega)).bind fun e c₄ hc₄ hlen₄ => ?_
      refine (ih m hc₄ (by omega) (by omega) (by omega)).bind fun es c₅ hc₅ _ => ?_
      exact .pure hc₅ _

theorem pipeline_tracks (bracketed : Bool) {n m : Nat} {c : Cursor} (hc : c.Closed) (hℓ : c.rest.length ≤ ℓ)
    (hn : c.rest.length ≤ n) (hm : c.rest.length ≤ m) :
    Tracks k 1 (fun es => es) (pipeline n block bracketed) (pipeline m block' bracketed) c := by
  simp only [pipeline]
  refine (step_tracks h hc hℓ hn hm).bind fun e c₁ hc₁ hlen₁ => ?_
  refine (moreSteps_tracks h bracketed n m hc₁ (by omega) (by omega) (by omega)).bind fun es c₂ hc₂ _ => ?_
  exact .pure hc₂ _

theorem arm_tracks (hasFallback : Bool) {n m : Nat} {c : Cursor} (hc : c.Closed) (hℓ : c.rest.length ≤ ℓ)
    (hn : c.rest.length ≤ n) (hm : c.rest.length ≤ m) :
    Tracks k 1 (fun a => a) (arm n block hasFallback) (arm m block' hasFallback) c := by
  simp only [arm]
  refine .current ?_
  rw [Token.kind_down]
  cases hk : c.current.kind with
  | keyword j =>
    cases j with
    | caseKw =>
      refine (Tracks.next hc (by simp [hk])).bind fun _ c₁ hc₁ hlen₁ => ?_
      refine (expr_tracks hc₁ (by omega) (by omega)).bind fun condition c₂ hc₂ hlen₂ => ?_
      refine (Tracks.expect _ hc₂ (by simp)).bind fun _ c₃ hc₃ hlen₃ => ?_
      refine (pipeline_tracks h true hc₃ (by omega) (by omega) (by omega)).bind fun action c₄ hc₄ _ => ?_
      exact .pure hc₄ _
    | defaultKw =>
      cases hasFallback with
      | true => exact .duplicate_bind _ _ _ _ _
      | false =>
        refine (Tracks.next hc (by simp [hk])).bind fun _ c₁ hc₁ hlen₁ => ?_
        refine (Tracks.expect _ hc₁ (by simp)).bind fun _ c₂ hc₂ hlen₂ => ?_
        refine (pipeline_tracks h true hc₂ (by omega) (by omega) (by omega)).bind fun action c₃ hc₃ _ => ?_
        exact .pure hc₃ _
    | _ => exact .fail _
  | _ => exact .fail _

theorem arms_tracks (n : Nat) :
    ∀ (m : Nat) (hasFallback : Bool) {c : Cursor}, c.Closed → c.rest.length ≤ ℓ → c.rest.length < n →
      c.rest.length < m → Tracks k 0 (fun b => b) (arms block n hasFallback) (arms block' m hasFallback) c := by
  induction n with
  | zero => intro m hasFallback c _ _ hn; omega
  | succ n ih =>
    intro m hasFallback c hc hℓ hn hm
    obtain ⟨m, rfl⟩ : ∃ j, m = j + 1 := ⟨m - 1, by omega⟩
    simp only [arms]
    refine (Tracks.skipNewlines hc).bind fun _ c₁ hc₁ hlen₁ => ?_
    refine .ifAt (fun _ => .pure hc₁ _) fun _ => ?_
    refine (arm_tracks h hasFallback hc₁ (by omega) (by omega) (by omega)).bind fun a c₂ hc₂ hlen₂ => ?_
    have hmore : ∀ {c₃ : Cursor}, c₃.Closed → c₃.rest.length ≤ c₂.rest.length → Tracks k 0 (fun b => b)
        (arms block n (hasFallback || a.isFallback) >>= fun b => pure (a.before b))
        (arms block' m (hasFallback || a.isFallback) >>= fun b => pure (a.before b)) c₃ := by
      intro c₃ hc₃ hlen₃
      refine (ih m _ hc₃ (by omega) (by omega) (by omega)).bind fun b c₄ hc₄ _ => ?_
      exact .pure hc₄ _
    refine .ifAt (fun hcomma => ?_) fun _ => hmore hc₂ (Nat.le_refl _)
    exact (Tracks.next hc₂ (by simp [hcomma])).bind fun _ c₃ hc₃ hlen₃ => hmore hc₃ (by omega)

theorem routerBlockWith_tracks {n m : Nat} {c : Cursor} (hc : c.Closed) (hℓ : c.rest.length ≤ ℓ)
    (hn : c.rest.length ≤ n) (hm : c.rest.length ≤ m) :
    Tracks k 1 (fun b => b) (routerBlockWith n block) (routerBlockWith m block') c := by
  simp only [routerBlockWith]
  refine (Tracks.expect _ hc (by simp)).bind fun _ c₁ hc₁ hlen₁ => ?_
  refine (arms_tracks h _ _ false hc₁ (by omega) (by omega) (by omega)).bind fun b c₂ hc₂ _ => ?_
  refine (Tracks.expect _ hc₂ (by simp)).bind fun _ c₃ hc₃ _ => ?_
  exact .pure hc₃ _

end Nested

theorem routerBlockTo_tracks (n m : Nat) {c : Cursor} (hc : c.Closed) (hn : c.rest.length < n)
    (hm : c.rest.length < m) :
    Tracks k 1 (fun b => b) (routerBlockTo n) (routerBlockTo m) c := by
  induction n generalizing m c with
  | zero => omega
  | succ n ih =>
    obtain ⟨m, rfl⟩ : ∃ j, m = j + 1 := ⟨m - 1, by omega⟩
    have hblock : TracksBelow k c.rest.length (routerBlockTo n) (routerBlockTo m) := by
      intro c' hc' hlen
      exact ih m hc' (by omega) (by omega)
    exact routerBlockWith_tracks hblock hc (Nat.le_refl _) (by omega) (by omega)

/-- Router blocks under bounds that need not exceed the tokens left by more than one. -/
theorem routerBlock_tracks {n m : Nat} (hn : ℓ ≤ n + 1) (hm : ℓ ≤ m + 1) :
    TracksBelow k ℓ (routerBlock n) (routerBlock m) :=
  fun _ hc hlen => routerBlockTo_tracks _ _ hc (by omega) (by omega)

end Parser

end ChainCompiler
