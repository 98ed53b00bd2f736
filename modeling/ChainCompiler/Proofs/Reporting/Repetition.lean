import ChainCompiler.Proofs.Completeness.Expr
import ChainCompiler.Proofs.Soundness.Statement
import ChainCompiler.Proofs.Viability.Stalling

/-! Where a parser reports that something is given twice, the innermost bracket that is open there has been given it
before. -/

namespace ChainCompiler

namespace Grammar

/-- At the token `t`, which comes after the tokens `ts`, the bracket that is open there is given something again. What
comes before that bracket does not matter. -/
inductive Repetition : Once → String → List Token → Token → Prop
  | argument {o nl us t args} :
      o.kind = .mark .lparen → Newlines nl → Members (NamedArgument Value) us args →
      IsName t → some t.text ∈ args.map Argument.name → Repetition .argument t.text (o :: (nl ++ us)) t
  | key {o nl us t entries key} :
      o.kind = .mark .lbrace → Newlines nl → Members (ObjectEntry Value) us entries →
      Key t key → key ∈ entries.map Prod.fst → Repetition .key key (o :: (nl ++ us)) t
  | routerArm {o nl us t b} :
      o.kind = .mark .lbrace → Newlines nl → Arms Block us b →
      t.kind = .keyword .defaultKw → b.fallback.isSome = true →
      Repetition .routerArm Keyword.defaultKw.spelling (o :: (nl ++ us)) t
  | behind {what name ts t} (us : List Token) : Repetition what name ts t → Repetition what name (us ++ ts) t

end Grammar

namespace Parser

open Grammar

variable {α β : Type}

/-- Where the parser reports a repetition at the token `t`, the tokens before that one are as `G` says. -/
def Repeats (P : Parser α) (G : Once → String → List Token → Token → Prop) : Prop :=
  ∀ ⦃c : Cursor⦄ ⦃what : Once⦄ ⦃name : String⦄ ⦃t : Token⦄, c.Closed → P c = .error (.duplicate what name t) →
    ∃ ts, c.StopsAt ts t ∧ G what name ts t

namespace Repeats

variable {P : Parser α} {f : α → Parser β} {G H : Once → String → List Token → Token → Prop}

theorem imp (h : Repeats P G) (hGH : ∀ what name ts t, G what name ts t → H what name ts t) : Repeats P H := by
  intro c what name t hc hp
  obtain ⟨ts, hstops, hG⟩ := h hc hp
  exact ⟨ts, hstops, hGH what name ts t hG⟩

theorem of_never (h : ∀ c what name t, P c ≠ .error (.duplicate what name t)) : Repeats P G :=
  fun c what name t _ hp => absurd hp (h c what name t)

theorem pure {a : α} : Repeats (pure a : Parser α) G := of_never fun _ _ _ _ => nofun

theorem fail {want : Want} : Repeats (Parser.fail want : Parser α) G := of_never fun _ _ _ _ => nofun

theorem skipNewlines : Repeats Parser.skipNewlines G := of_never fun _ _ _ _ => nofun

theorem expect {k : Kind} {want : Want} : Repeats (Parser.expect k want) G := by
  apply of_never
  intro c what name t hp
  unfold Parser.expect at hp
  split at hp <;> cases hp

theorem expectIdentifier {want : Want} : Repeats (Parser.expectIdentifier want) G := by
  apply of_never
  intro c what name t hp
  unfold Parser.expectIdentifier at hp
  split at hp <;> cases hp

theorem joinLines : Repeats Parser.joinLines G := by
  apply of_never
  intro c what name t hp
  unfold Parser.joinLines at hp
  split at hp <;> cases hp

theorem comma : Repeats Parser.comma G := by
  apply of_never
  intro c what name t hp
  unfold Parser.comma at hp
  split at hp <;> cases hp

/-- Where lines may be broken. -/
theorem ofBreak {Q : Parser Unit} (h : Repeats Q G) {bracketed : Bool} :
    Repeats (if bracketed then Q else Pure.pure ()) G := by
  cases bracketed with
  | true => exact h
  | false => exact .pure

/-- A sequence reports in its first part, or in its second part behind what the first one read. -/
theorem bind {L : Phrases α} (hreads : Reads P L) (hP : Repeats P G)
    (hf : ∀ us a, L us a → Repeats (f a) fun what name ts t => G what name (us ++ ts) t) : Repeats (P >>= f) G := by
  intro c what name t hc hp
  rcases bind_eq_error.1 hp with hfirst | ⟨a, c₁, h₁, hsecond⟩
  · exact hP hc hfirst
  · obtain ⟨hc₁, us, rfl, ha⟩ := hreads hc h₁
    obtain ⟨ts, hstops, hG⟩ := hf us a ha hc₁ hsecond
    exact ⟨us ++ ts, hstops.back us, hG⟩

/-- A parser that only looks at what comes next reports nothing. -/
theorem peek {γ : Type} {Q : Parser γ} {f : γ → Parser β} (hQ : ∀ c, ∃ a, Q c = .ok (a, c))
    (h : ∀ a, Repeats (f a) G) : Repeats (Q >>= f) G := by
  intro c what name t hc hp
  obtain ⟨a, ha⟩ := hQ c
  rw [bind_of_ok f ha] at hp
  exact h a hc hp

end Repeats

/-- Every repetition that the parser reports is one. -/
abbrev Detects (P : Parser α) : Prop := Repeats P Repetition

namespace Detects

variable {P : Parser α} {f : α → Parser β}

/-- What comes before a part of the input changes no repetition in it. -/
theorem behind (h : Detects P) (us : List Token) : Repeats P fun what name ts t => Repetition what name (us ++ ts) t :=
  h.imp fun _ _ _ _ hts => .behind us hts

theorem bind {L : Phrases α} (hreads : Reads P L) (hP : Detects P) (hf : ∀ a, Detects (f a)) : Detects (P >>= f) :=
  Repeats.bind hreads hP fun us a _ => (hf a).behind us

theorem next_bind {f : Token → Parser β} {c : Cursor} (hk : c.current.kind ≠ .eof) (hf : Detects (f c.current))
    (hc : c.Closed) {what : Once} {name : String} {t : Token}
    (hp : (next >>= f) c = .error (.duplicate what name t)) : ∃ ts, c.StopsAt ts t ∧ Repetition what name ts t := by
  have hp : f c.current c.advance = .error (.duplicate what name t) := hp
  obtain ⟨ts, hstops, hts⟩ := hf (Cursor.closed_advance hc hk) hp
  have hback := hstops.back [c.current]
  rw [Cursor.back_advance hc hk] at hback
  exact ⟨c.current :: ts, hback, .behind [c.current] hts⟩

theorem ifAt {k : Kind} (hk : k ≠ .eof) {f : Token → Parser β} {Q : Parser β} (hf : ∀ t, Detects (f t))
    (hQ : Detects Q) : Detects (Parser.isAt k >>= fun b => if b then next >>= f else Q) := by
  intro c what name t hc hp
  rw [isAt_bind] at hp
  split at hp
  · next hat =>
    have hkind : c.current.kind = k := by simpa using hat
    exact next_bind (hkind ▸ hk) (hf _) hc hp
  · exact hQ hc hp

end Detects

/-- A member reports a repetition inside it, or at its first token one of what the members `before` it have. -/
def DetectsAmong (R : Once → String → Token → List α → Prop) (before : List α) (P : Parser α) : Prop :=
  Repeats P fun what name ts t => Repetition what name ts t ∨ ts = [] ∧ R what name t before

/-- At the closing bracket no more members are read. -/
theorem members_ne_duplicate_of_close {member : List α → Parser α} {close : Mark} {want : Want} {n : Nat}
    {before : List α} {c : Cursor} {what : Once} {name : String} {t : Token} (hk : c.current.kind = .mark close) :
    members member close want n before c ≠ .error (.duplicate what name t) := by
  intro hp
  cases n with
  | zero => cases hp
  | succ n =>
    rw [members, isAt_bind, if_pos (by simp [hk])] at hp
    cases hp

/-- Of the members that have been read, each counts for those after it. -/
theorem members_repeats {member : List α → Parser α} {M : Phrases α} {R : Once → String → Token → List α → Prop}
    (hreads : ∀ before, Reads (member before) M) (hmember : ∀ before, DetectsAmong R before (member before))
    (close : Mark) (want : Want) (n : Nat) (before : List α) :
    Repeats (members member close want n before) fun what name ts t =>
      Repetition what name ts t ∨ ∃ xs, Members M ts xs ∧ R what name t (xs.reverse ++ before) := by
  induction n generalizing before with
  | zero => exact .fail
  | succ n ih =>
    rw [members]
    refine .peek (fun _ => ⟨_, rfl⟩) fun b => ?_
    split
    · exact .pure
    refine .bind (hreads before) ((hmember before).imp ?_) fun us x hx => ?_
    · rintro what name ts t (hin | ⟨rfl, hR⟩)
      · exact .inl hin
      · exact .inr ⟨[], .nil, hR⟩
    refine .bind skipNewlines_reads .skipNewlines fun nl _ hnl => .bind comma_reads .comma ?_
    rintro _ _ (⟨rfl, rfl⟩ | ⟨rfl, comma, nl', rfl, hcomma, hnl'⟩)
    · -- without a comma the bracket has to be closed, and nothing more is read
      rw [if_neg (by simp)]
      intro c what name t hc hp
      rw [isAt_bind] at hp
      split at hp
      · next hclose =>
        rcases bind_eq_error.1 hp with hmore | ⟨_, _, _, hpure⟩
        · exact absurd hmore (members_ne_duplicate_of_close (by simpa using hclose))
        · cases hpure
      · cases hp
    · rw [if_pos rfl]
      intro c what name t hc hp
      rcases bind_eq_error.1 hp with hmore | ⟨_, _, _, hpure⟩
      · obtain ⟨ws, hstops, hws⟩ := ih (x :: before) hc hmore
        refine ⟨ws, hstops, ?_⟩
        rcases hws with hin | ⟨xs, hxs, hR⟩
        · exact .inl (.behind us (.behind nl (.behind (comma :: nl') hin)))
        · have hall : Members M (us ++ (nl ++ (comma :: nl' ++ ws))) (x :: xs) := .cons hx hnl hcomma hnl' hxs
          exact .inr ⟨x :: xs, hall, by simpa using hR⟩
      · cases hpure

/-- In brackets nothing comes before the first member but newlines. -/
theorem membersTo_repeats {member : List α → Parser α} {M : Phrases α} {R : Once → String → Token → List α → Prop}
    (hreads : ∀ before, Reads (member before) M) (hmember : ∀ before, DetectsAmong R before (member before))
    (n : Nat) (close : Mark) (want wantClose : Want) :
    Repeats (membersTo n member close want wantClose) fun what name ts t =>
      Repetition what name ts t ∨
        ∃ nl us xs, ts = nl ++ us ∧ Newlines nl ∧ Members M us xs ∧ R what name t xs.reverse := by
  have hplain : ∀ before, Reads (member before) fun ts x => M ts x ∧ ∀ y ∈ before, True :=
    fun before => (hreads before).mono fun _ _ hx => ⟨hx, by simp⟩
  refine .bind skipNewlines_reads .skipNewlines fun nl _ hnl => ?_
  refine .bind (members_reads (R := fun _ _ => True) hplain close want _ _)
    ((members_repeats hreads hmember close want _ _).imp ?_) fun _ xs _ => ?_
  · rintro what name us t (hin | ⟨xs, hxs, hR⟩)
    · exact .inl (.behind nl hin)
    · exact .inr ⟨nl, us, xs, rfl, hnl, hxs, by simpa using hR⟩
  · exact .bind (expect_reads (by simp) _) .expect fun _ _ _ => .pure

section Nested

variable {inner : Parser Expr} (h : Detects inner)
include h

/-- The report comes after the value of the argument, but it is about the name in front of it. -/
theorem namedArgument_repeats (before : List Argument) :
    DetectsAmong
      (fun what name t args => what = .argument ∧ name = t.text ∧ IsName t ∧ some name ∈ args.map Argument.name)
      before (namedArgument inner before) := by
  intro c what name t hc hp
  rw [namedArgument, current_bind, bind_eq_error] at hp
  rcases hp with hname | ⟨x, c₁, h₁, hp⟩
  · unfold expectName at hname
    split at hname <;> cases hname
  obtain ⟨hc₁, _, rfl, token, rfl, htoken, rfl⟩ := expectName_reads _ hc h₁
  rw [bind_eq_error] at hp
  rcases hp with hassign | ⟨assign, c₂, h₂, hp⟩
  · unfold expect at hassign
    split at hassign <;> cases hassign
  obtain ⟨hc₂, _, rfl, rfl, -⟩ := expect_reads (by simp) _ hc₁ h₂
  rw [bind_eq_error] at hp
  rcases hp with hvalue | ⟨value, c₃, h₃, hp⟩
  · obtain ⟨ts, hstops, hts⟩ := h hc₂ hvalue
    exact ⟨token :: assign :: ts, (hstops.back [assign]).back [token], .inl (.behind [token, assign] hts)⟩
  · split at hp
    · next hgiven =>
      cases hp
      refine ⟨[], Cursor.stopsAt_current _, .inr ⟨rfl, rfl, rfl, htoken, ?_⟩⟩
      simpa [Argument.isNamed, List.mem_map] using hgiven
    · cases hp

theorem entry_repeats (before : List (String × Expr)) :
    DetectsAmong (fun what name t entries => what = .key ∧ Key t name ∧ name ∈ entries.map Prod.fst)
      before (entry inner before) := by
  intro c what name t hc hp
  rw [entry, current_bind] at hp
  cases hkey : keyText? c.current with
  | none => rw [hkey] at hp; cases hp
  | some key =>
    simp only [hkey] at hp
    have hk := key_of_keyText? hkey
    rw [bind_eq_error] at hp
    rcases hp with hnext | ⟨token, c₁, h₁, hp⟩
    · cases hnext
    obtain ⟨hc₁, hback⟩ := next_reads hc hk.ne_eof h₁
    rw [bind_eq_error] at hp
    rcases hp with hsep | ⟨_, c₂, h₂, hp⟩
    · rw [keySeparator, isAt_bind, isAt_bind] at hsep
      split at hsep <;> cases hsep
    obtain ⟨hc₂, _, rfl, sep, rfl, -⟩ := keySeparator_reads hc₁ h₂
    rw [bind_eq_error] at hp
    rcases hp with hvalue | ⟨value, c₃, h₃, hp⟩
    · obtain ⟨ts, hstops, hts⟩ := h hc₂ hvalue
      refine ⟨token :: sep :: ts, ?_, .inl (.behind [token, sep] hts)⟩
      rw [hback]
      exact (hstops.back [sep]).back [token]
    · split at hp
      · next hgiven =>
        cases hp
        refine ⟨[], c.stopsAt_current, .inr ⟨rfl, rfl, hk, ?_⟩⟩
        simpa [List.mem_map] using hgiven
      · cases hp

theorem soleArgument_detects (hreads : Reads inner Value) : Detects (soleArgument inner) := by
  apply Detects.bind hreads h
  intro value
  apply Detects.bind skipNewlines_reads .skipNewlines
  intro _
  apply Detects.bind comma_reads .comma
  intro _
  exact Detects.bind (expect_reads (by simp) _) .expect fun _ => .pure

theorem arguments_detects (hreads : Reads inner Value) (n : Nat) : Detects (arguments n inner) := by
  refine Repeats.bind (expect_reads (by simp) _) .expect ?_
  rintro _ o ⟨rfl, ho⟩
  refine .bind skipNewlines_reads .skipNewlines fun nl _ hnl => .peek (fun _ => ⟨_, rfl⟩) fun b => ?_
  split
  · have hnamed := fun before => (namedArgument_reads hreads before).mono fun _ _ ha => ha.1
    refine (membersTo_repeats hnamed (namedArgument_repeats h) _ _ _ _).imp ?_
    rintro what name ts t (hin | ⟨nl', us, args, rfl, hnl', hargs, rfl, rfl, ht, hgiven⟩)
    · exact .behind [o] (.behind nl hin)
    · rw [List.singleton_append, ← List.append_assoc nl]
      exact .argument ho (hnl.append hnl') hargs ht (by simpa using hgiven)
  · exact (soleArgument_detects h hreads).imp fun _ _ _ _ hts => .behind [o] (.behind nl hts)

theorem call_detects (hreads : Reads inner Value) (n : Nat) (name : String) : Detects (call n inner name) :=
  .bind (arguments_reads hreads n) (arguments_detects h hreads n) fun _ => .pure

theorem listLiteral_detects (hreads : Reads inner Value) (n : Nat) : Detects (listLiteral n inner) := by
  apply Detects.bind (expect_reads (by simp) _) .expect
  intro o
  have hitem : ∀ before : List Expr, DetectsAmong (fun _ _ _ _ => False) before inner := by
    intro before c what name t hc hp
    obtain ⟨ts, hstops, hts⟩ := h hc hp
    exact ⟨ts, hstops, .inl hts⟩
  have hitems : Detects (membersTo n (fun _ => inner) .rbracket .itemEnd .listClose) := by
    intro c what name t hc hp
    obtain ⟨ts, hstops, hin | ⟨_, _, _, _, _, _, hfalse⟩⟩ := membersTo_repeats (fun _ => hreads) hitem _ _ _ _ hc hp
    · exact ⟨ts, hstops, hin⟩
    · exact hfalse.elim
  have hitemsRead := membersTo_reads (R := fun _ _ => True) (fun _ => hreads.mono fun _ _ he => ⟨he, by simp⟩)
  exact Detects.bind (hitemsRead n .rbracket .itemEnd .listClose) hitems fun _ => .pure

theorem objectLiteral_detects (hreads : Reads inner Value) (n : Nat) : Detects (objectLiteral n inner) := by
  refine Repeats.bind (expect_reads (by simp) _) .expect ?_
  rintro _ o ⟨rfl, ho⟩
  have hentry := fun before => (entry_reads hreads before).mono fun _ _ ha => ha.1
  refine .bind (membersTo_reads (entry_reads hreads) _ _ _ _)
    ((membersTo_repeats hentry (entry_repeats h) _ _ _ _).imp ?_) fun _ _ _ => .pure
  rintro what name ts t (hin | ⟨nl, us, entries, rfl, hnl, hus, rfl, ht, hgiven⟩)
  · exact .behind [o] hin
  · rw [List.singleton_append]
    exact .key ho hnl hus ht (by simpa using hgiven)

theorem named_detects (hreads : Reads inner Value) (n : Nat) (name : String) (alone : Expr) :
    Detects (named n inner name alone) := by
  apply Repeats.peek fun _ => ⟨_, rfl⟩
  intro b
  split
  · exact Detects.bind (call_reads hreads n name) (call_detects h hreads n name) fun _ => .pure
  · exact .pure

theorem exprWith_detects (hreads : Reads inner Value) (n : Nat) : Detects (exprWith n inner) := by
  intro c what name t hc hp
  rw [exprWith, current_bind] at hp
  cases hk : c.current.kind with
  | identifier =>
    rw [hk] at hp
    exact Detects.next_bind (by simp [hk]) (named_detects h hreads n _ _) hc hp
  | keyword k =>
    simp only [hk] at hp
    split at hp
    · exact Detects.next_bind (by simp [hk]) (named_detects h hreads n _ _) hc hp
    · cases hp
  | number =>
    simp only [hk, numberLiteral] at hp
    cases hv : Double.read? c.current.text with
    | none => rw [hv] at hp; cases hp
    | some v => rw [hv] at hp; cases hp
  | mark m =>
    rw [hk] at hp
    cases m with
    | lbrace => exact objectLiteral_detects h hreads n hc hp
    | lbracket => exact listLiteral_detects h hreads n hc hp
    | _ => cases hp
  | _ => rw [hk] at hp; cases hp

end Nested

theorem exprTo_detects (n : Nat) : Detects (exprTo n) := by
  induction n with
  | zero => exact .fail
  | succ n ih => exact exprWith_detects ih (exprTo_reads n) n

theorem expr_detects (n : Nat) : Detects (expr n) := exprTo_detects (n + 1)

theorem modifiers_detects (n : Nat) (e : Expr) : Detects (modifiers n e) := by
  induction n generalizing e with
  | zero => exact .pure
  | succ n ih =>
    apply Detects.ifAt (by simp)
    · intro _
      apply Detects.bind (expectIdentifier_reads _) .expectIdentifier
      intro name
      apply Detects.bind (call_reads (expr_reads n) n name) (call_detects (expr_detects n) (expr_reads n) n name)
      intro m
      exact ih _
    · exact .pure

/-- The token starts a fallback, and that is what the report is about. -/
def AtDefault (what : Once) (name : String) (t : Token) : Prop :=
  what = .routerArm ∧ name = Keyword.defaultKw.spelling ∧ t.kind = .keyword .defaultKw

section Blocks

variable {block : Parser RouterBlock} (hreads : Reads block Block) (h : Detects block)
include hreads h

theorem exprBlock_detects (n : Nat) : Detects (exprBlock n block) := by
  apply Detects.bind (expr_reads n) (expr_detects n)
  intro e
  cases e with
  | call m =>
    apply Repeats.peek fun _ => ⟨_, rfl⟩
    intro b
    split
    · exact Detects.bind hreads h fun _ => .pure
    · exact .pure
  | _ => exact .pure

theorem step_detects (n : Nat) : Detects (step n block) :=
  .bind (exprBlock_reads hreads n) (exprBlock_detects hreads h n) fun e => modifiers_detects n e

theorem moreSteps_detects (bracketed : Bool) (n : Nat) : Detects (moreSteps block bracketed n) := by
  induction n with
  | zero => exact .pure
  | succ n ih =>
    rw [moreSteps_succ]
    apply Detects.bind (break_reads joinLines_reads bracketed) (.ofBreak .joinLines)
    intro _
    apply Detects.ifAt (by simp)
    · intro _
      apply Detects.bind (break_reads skipNewlines_reads bracketed) (.ofBreak .skipNewlines)
      intro _
      apply Detects.bind (step_reads hreads n) (step_detects hreads h n)
      intro e
      exact Detects.bind (moreSteps_reads hreads bracketed n) ih fun _ => .pure
    · exact .pure

theorem pipeline_detects (n : Nat) (bracketed : Bool) : Detects (pipeline n block bracketed) := by
  apply Detects.bind (step_reads hreads n) (step_detects hreads h n)
  intro e
  exact Detects.bind (moreSteps_reads hreads bracketed n) (moreSteps_detects hreads h bracketed n) fun _ => .pure

theorem arm_repeats (n : Nat) (hasFallback : Bool) :
    Repeats (arm n block hasFallback) fun what name ts t =>
      Repetition what name ts t ∨ ts = [] ∧ hasFallback = true ∧ AtDefault what name t := by
  intro c what name t hc hp
  have hinside : (∃ ts, c.StopsAt ts t ∧ Repetition what name ts t) →
      ∃ ts, c.StopsAt ts t ∧ (Repetition what name ts t ∨ ts = [] ∧ hasFallback = true ∧ AtDefault what name t) := by
    rintro ⟨ts, hstops, hts⟩
    exact ⟨ts, hstops, .inl hts⟩
  have hpipeline : ∀ f : List Expr → Arm, Detects (pipeline n block true >>= fun steps => pure (f steps)) := by
    intro f
    exact Detects.bind (pipeline_reads hreads n true) (pipeline_detects hreads h n true) fun _ => .pure
  rw [arm, current_bind] at hp
  cases hk : c.current.kind with
  | keyword k =>
    rw [hk] at hp
    cases k with
    | caseKw =>
      refine hinside (Detects.next_bind (by simp [hk]) ?_ hc hp)
      apply Detects.bind (expr_reads n) (expr_detects n)
      intro condition
      exact Detects.bind (expect_reads (by simp) _) .expect fun _ => hpipeline _
    | defaultKw =>
      simp only at hp
      split at hp
      · next hsecond =>
        cases hp
        exact ⟨[], c.stopsAt_current, .inr ⟨rfl, hsecond, rfl, rfl, hk⟩⟩
      · refine hinside (Detects.next_bind (by simp [hk]) ?_ hc hp)
        exact Detects.bind (expect_reads (by simp) _) .expect fun _ => hpipeline _
    | _ => cases hp
  | _ => rw [hk] at hp; cases hp

/-- A second fallback is reported when one has been read, before the arms here or among them. -/
theorem arms_repeats (n : Nat) (hasFallback : Bool) :
    Repeats (arms block n hasFallback) fun what name ts t =>
      Repetition what name ts t ∨
        ∃ nl us b, ts = nl ++ us ∧ Newlines nl ∧ Arms Block us b ∧ (hasFallback = true → b.fallback = none) ∧
          (hasFallback || b.fallback.isSome) = true ∧ AtDefault what name t := by
  induction n generalizing hasFallback with
  | zero => intro c what name t hc hp; cases hp
  | succ n ih =>
    intro c what name t hc hp
    rw [arms, bind_eq_error] at hp
    rcases hp with hskip | ⟨_, c₁, h₁, hp⟩
    · cases hskip
    obtain ⟨hc₁, nl, rfl, hnl⟩ := skipNewlines_reads hc h₁
    rw [isAt_bind] at hp
    split at hp
    · cases hp
    rw [bind_eq_error] at hp
    rcases hp with hfirst | ⟨a, c₂, h₂, hp⟩
    · obtain ⟨ts, hstops, hin | ⟨rfl, hsecond, hat⟩⟩ := arm_repeats hreads h n hasFallback hc₁ hfirst
      · exact ⟨nl ++ ts, hstops.back nl, .inl (.behind nl hin)⟩
      · exact ⟨nl ++ [], hstops.back nl, .inr ⟨nl, [], ⟨[], none⟩, rfl, hnl, .nil, by simp, by simp [hsecond], hat⟩⟩
    obtain ⟨hc₂, ts, rfl, hone, harms⟩ := arm_reads hreads n hasFallback hc₁ h₂
    -- with or without the comma, what follows is read by the same call
    obtain ⟨us, c₃, hus, hc₃, rfl, hrest⟩ : ∃ us c₃, (us = [] ∨ ∃ t, us = [t] ∧ t.kind = .mark .comma) ∧
        Cursor.Closed c₃ ∧ c₂ = c₃.back us ∧
        arms block n (hasFallback || a.isFallback) c₃ = .error (.duplicate what name t) := by
      rw [isAt_bind] at hp
      split at hp
      · next hcomma =>
        have hk : c₂.current.kind = .mark .comma := by simpa using hcomma
        rw [bind_eq_error] at hp
        rcases hp with hnext | ⟨u, c₃, h₃, hp⟩
        · cases hnext
        obtain ⟨hc₃, hback⟩ := next_reads hc₂ (by simp [hk]) h₃
        obtain rfl : c₂.current = u := by cases h₃; rfl
        rw [bind_eq_error] at hp
        rcases hp with hmore | ⟨_, _, _, hpure⟩
        · exact ⟨[c₂.current], c₃, .inr ⟨_, rfl, hk⟩, hc₃, hback, hmore⟩
        · cases hpure
      · rw [bind_eq_error] at hp
        rcases hp with hmore | ⟨_, _, _, hpure⟩
        · exact ⟨[], c₂, .inl rfl, hc₂, rfl, hmore⟩
        · cases hpure
    obtain ⟨vs, hstops, hvs⟩ := ih _ hc₃ hrest
    refine ⟨nl ++ (ts ++ (us ++ vs)), ((hstops.back us).back ts).back nl, ?_⟩
    rcases hvs with hin | ⟨nl', ws, b, rfl, hnl', hws, hlast, hsome, hat⟩
    · exact .inl (.behind nl (.behind ts (.behind us hin)))
    have hend : ArmEnd (us ++ nl') := by
      rcases hus with rfl | ⟨t, rfl, ht⟩
      · exact .plain hnl'
      · exact .comma ht hnl'
    have hnone : a.isFallback = true → b.fallback = none := fun ha => hlast (by simp [ha])
    refine .inr ⟨nl, _, a.before b, rfl, hnl, by simpa using harms _ _ _ hend hws hnone, ?_, ?_, hat⟩
    · intro hf
      have ha := hone hf
      have hb := hlast (by simp [hf])
      cases a with
      | case condition action => exact hb
      | fallback action => cases ha
    · cases a with
      | case condition action => simpa [Arm.isFallback, Arm.before] using hsome
      | fallback action => simp [Arm.before]

theorem routerBlockWith_detects (n : Nat) : Detects (routerBlockWith n block) := by
  refine Repeats.bind (expect_reads (by simp) _) .expect ?_
  rintro _ o ⟨rfl, ho⟩
  refine .bind (arms_reads hreads _ _) ((arms_repeats hreads h _ _).imp ?_) fun _ b _ => ?_
  · rintro what name ts t (hin | ⟨nl, us, b, rfl, hnl, hus, -, hsome, rfl, rfl, ht⟩)
    · exact .behind [o] hin
    · rw [List.singleton_append]
      exact .routerArm ho hnl hus ht (by simpa using hsome)
  · exact .bind (expect_reads (by simp) _) .expect fun _ _ _ => .pure

end Blocks

theorem routerBlockTo_detects (n : Nat) : Detects (routerBlockTo n) := by
  induction n with
  | zero => exact .fail
  | succ n ih => exact routerBlockWith_detects (routerBlockTo_reads n) ih n

theorem routerBlock_detects (n : Nat) : Detects (routerBlock n) := routerBlockTo_detects (n + 1)

theorem endStatement_detects : Detects endStatement := .ifAt (by simp) (fun _ => .pure) .pure

theorem heading_detects (k : Keyword) (want : Want) : Detects (heading k want) := by
  apply Detects.bind (expect_reads (by simp) _) .expect
  intro token
  exact Detects.bind (expectIdentifier_reads _) .expectIdentifier fun _ => .pure

theorem definition_detects (n : Nat) : Detects (definition n) := by
  apply Detects.bind (heading_reads _ _) (heading_detects _ _)
  intro x
  apply Detects.bind (expect_reads (by simp) _) .expect
  intro _
  apply Detects.bind (step_reads (routerBlock_reads n) n) (step_detects (routerBlock_reads n) (routerBlock_detects n) n)
  intro value
  exact .bind endStatement_reads endStatement_detects fun _ => .pure

theorem contextBody_detects (n : Nat) : Detects (contextBody n) := by
  apply Detects.bind (expect_reads (by simp) _) .expect
  intro _
  apply Detects.bind (call_reads (expr_reads n) n _) (call_detects (expr_detects n) (expr_reads n) n _)
  intro context
  apply Detects.bind (expect_reads (by simp) _) .expect
  intro _
  apply Detects.bind skipNewlines_reads .skipNewlines
  intro _
  apply Detects.bind (pipeline_reads (routerBlock_reads n) n true)
    (pipeline_detects (routerBlock_reads n) (routerBlock_detects n) n true)
  intro steps
  apply Detects.bind skipNewlines_reads .skipNewlines
  intro _
  exact Detects.bind (expect_reads (by simp) _) .expect fun _ => .pure

theorem chain_detects (n : Nat) : Detects (chain n) := by
  apply Detects.bind (heading_reads _ _) (heading_detects _ _)
  intro x
  apply Detects.bind (expect_reads (by simp) _) .expect
  intro _
  apply Detects.ifAt (by simp)
  · intro _
    apply Detects.bind (contextBody_reads n) (contextBody_detects n)
    intro body
    exact Detects.bind endStatement_reads endStatement_detects fun _ => .pure
  · apply Detects.bind (pipeline_reads (routerBlock_reads n) n false)
      (pipeline_detects (routerBlock_reads n) (routerBlock_detects n) n false)
    intro steps
    apply Repeats.peek fun _ => ⟨_, rfl⟩
    intro body
    exact Detects.bind endStatement_reads endStatement_detects fun _ => .pure

theorem fieldEnd_detects : Detects fieldEnd := by
  apply Repeats.of_never
  intro c what name t hp
  rw [fieldEnd, kind_bind] at hp
  cases hk : c.current.kind with
  | mark m =>
    rw [hk] at hp
    cases m <;> cases hp
  | _ => rw [hk] at hp; cases hp

theorem fields_detects (n : Nat) : Detects (fields n) := by
  induction n with
  | zero => exact .fail
  | succ n ih =>
    apply Repeats.peek fun _ => ⟨_, rfl⟩
    intro b
    split
    · exact .pure
    apply Detects.bind (expectIdentifier_reads _) .expectIdentifier
    intro name
    apply Detects.bind (expect_reads (by simp) _) .expect
    intro _
    apply Detects.bind (expectIdentifier_reads _) .expectIdentifier
    intro type
    apply Detects.bind fieldEnd_reads fieldEnd_detects
    intro _
    exact Detects.bind (fields_reads n) ih fun _ => .pure

theorem schema_detects (n : Nat) : Detects (schema n) := by
  apply Detects.bind (heading_reads _ _) (heading_detects _ _)
  intro x
  apply Detects.bind (expect_reads (by simp) _) .expect
  intro _
  apply Detects.bind skipNewlines_reads .skipNewlines
  intro _
  apply Detects.bind (fields_reads _) (fields_detects _)
  intro fs
  apply Detects.bind (expect_reads (by simp) _) .expect
  intro _
  exact Detects.bind endStatement_reads endStatement_detects fun _ => .pure

theorem statements_detects (n : Nat) : Detects (statements n) := by
  induction n with
  | zero => exact .fail
  | succ n ih =>
    have hmore : ∀ s, Detects (statements n >>= fun p => pure (s :: p)) := by
      intro s c what name t hc hp
      rw [bind_eq_error] at hp
      rcases hp with hrest | ⟨_, _, _, hpure⟩
      · exact ih hc hrest
      · cases hpure
    intro c what name t hc hp
    rw [statements, kind_bind] at hp
    cases hk : c.current.kind with
    | newline =>
      rw [hk] at hp
      exact Detects.next_bind (by simp [hk]) ih hc hp
    | keyword k =>
      rw [hk] at hp
      cases k with
      | defKw => exact Detects.bind (definition_reads n) (definition_detects n) hmore hc hp
      | chainKw => exact Detects.bind (chain_reads n) (chain_detects n) hmore hc hp
      | schemaKw => exact Detects.bind (schema_reads n) (schema_detects n) hmore hc hp
      | _ => cases hp
    | _ => rw [hk] at hp; cases hp

end Parser

end ChainCompiler
