import ChainCompiler.Parser.Expr
import ChainCompiler.Proofs.Opening

/-! Whatever the expression parsers read is derived by the grammar. -/

namespace ChainCompiler.Parser

open Grammar

variable {α : Type}

/-- From a closed place the parser only reads what the language has, and stops at a closed place again. -/
def Reads (P : Parser α) (L : Phrases α) : Prop :=
  ∀ ⦃c c' : Cursor⦄ ⦃a : α⦄, c.Closed → P c = .ok (a, c') → c'.Closed ∧ ∃ ts, c = c'.back ts ∧ L ts a

theorem Reads.mono {P : Parser α} {L M : Phrases α} (h : Reads P L) (hLM : ∀ ts a, L ts a → M ts a) : Reads P M := by
  intro c c' a hc hp
  obtain ⟨hc', ts, hts, hL⟩ := h hc hp
  exact ⟨hc', ts, hts, hLM ts a hL⟩

theorem next_reads {c c' : Cursor} {t : Token} (hc : c.Closed) (hk : c.current.kind ≠ .eof)
    (h : next c = .ok (t, c')) : c'.Closed ∧ c = c'.back [t] := by
  cases h
  exact ⟨Cursor.closed_advance hc hk, (Cursor.back_advance hc hk).symm⟩

theorem next_bind_reads {f : Token → Parser α} {c c' : Cursor} {a : α} (hc : c.Closed) (hk : c.current.kind ≠ .eof)
    (h : (next >>= f) c = .ok (a, c')) :
    ∃ c₁ : Cursor, c₁.Closed ∧ c = c₁.back [c.current] ∧ f c.current c₁ = .ok (a, c') := by
  obtain ⟨t, c₁, h₁, h⟩ := bind_eq_ok.1 h
  obtain ⟨hc₁, hback⟩ := next_reads hc hk h₁
  cases h₁
  exact ⟨_, hc₁, hback, h⟩

theorem expect_reads {k : Kind} (hk : k ≠ .eof) (want : Want) :
    Reads (expect k want) fun ts t => ts = [t] ∧ t.kind = k := by
  intro c c' t hc h
  unfold expect at h
  split at h
  · next hck =>
    obtain ⟨hc', hback⟩ := next_reads hc (by rwa [hck]) h
    cases h
    exact ⟨hc', _, hback, rfl, hck⟩
  · cases h

theorem expectIdentifier_reads (want : Want) :
    Reads (expectIdentifier want) fun ts s => ∃ t, ts = [t] ∧ t.kind = .identifier ∧ s = t.text := by
  intro c c' s hc h
  unfold expectIdentifier at h
  split at h
  · next hck =>
    cases h
    obtain ⟨hc', hback⟩ := next_reads hc (by simp [hck]) rfl
    exact ⟨hc', _, hback, _, rfl, hck, rfl⟩
  · cases h

theorem expectName_reads (want : Want) :
    Reads (expectName want) fun ts s => ∃ t, ts = [t] ∧ IsName t ∧ s = t.text := by
  intro c c' s hc h
  unfold expectName at h
  split at h
  · next hck =>
    have hname := (isNameKind_iff c.current).1 hck
    cases h
    obtain ⟨hc', hback⟩ := next_reads hc hname.ne_eof rfl
    exact ⟨hc', _, hback, _, rfl, hname, rfl⟩
  · cases h

theorem skipNewlines_reads : Reads skipNewlines fun ts _ => Newlines ts := by
  intro c c' u hc h
  cases h
  obtain ⟨nl, hnl, hback⟩ := c.exists_back_skipNewlines
  exact ⟨Cursor.closed_skipNewlines hc, nl, hback.symm, hnl⟩

theorem comma_reads :
    Reads comma fun ts b =>
      (b = false ∧ ts = []) ∨ (b = true ∧ ∃ t nl, ts = t :: nl ∧ t.kind = .mark .comma ∧ Newlines nl) := by
  intro c c' b hc h
  unfold comma at h
  split at h
  · next hck =>
    cases h
    obtain ⟨hc', hback⟩ := next_reads hc (by simp [hck]) rfl
    obtain ⟨hc'', nl, hnext, hnl⟩ := skipNewlines_reads hc' rfl
    refine ⟨hc'', _ :: nl, ?_, .inr ⟨rfl, _, _, rfl, hck, hnl⟩⟩
    rw [Cursor.back_cons, ← hnext]
    exact hback
  · cases h
    exact ⟨hc, [], rfl, .inl ⟨rfl, rfl⟩⟩

theorem members_at_close {member : List α → Parser α} {close : Mark} {want : Want} {n : Nat} {before xs : List α}
    {c c' : Cursor} (hk : c.current.kind = .mark close) (h : members member close want n before c = .ok (xs, c')) :
    xs = [] ∧ c' = c := by
  cases n with
  | zero => cases h
  | succ n =>
    simp only [members, bind_eq_ok] at h
    obtain ⟨b, _, hb, h⟩ := h
    cases hb
    rw [if_pos (by simp [hk])] at h
    cases h
    exact ⟨rfl, rfl⟩

/-- Members are read in order, each apart from all those before it. -/
theorem members_reads {member : List α → Parser α} {M : Phrases α} {R : α → α → Prop}
    (h : ∀ before, Reads (member before) fun ts x => M ts x ∧ ∀ y ∈ before, R y x) (close : Mark) (want : Want) :
    ∀ n before, Reads (members member close want n before) fun ts xs =>
      Members M ts xs ∧ xs.Pairwise R ∧ ∀ y ∈ before, ∀ x ∈ xs, R y x := by
  intro n
  induction n with
  | zero => intro before c c' xs hc hp; cases hp
  | succ n ih =>
    intro before c c' xs hc hp
    simp only [members, bind_eq_ok] at hp
    obtain ⟨b, _, hb, hp⟩ := hp
    cases hb
    split at hp
    · cases hp
      exact ⟨hc, [], rfl, .nil, .nil, by simp⟩
    simp only [bind_eq_ok] at hp
    obtain ⟨x, c₁, h₁, _, c₂, h₂, b, c₃, h₃, hp⟩ := hp
    obtain ⟨hc₁, ts, rfl, hx, hbefore⟩ := h before hc h₁
    obtain ⟨hc₂, nl, rfl, hnl⟩ := skipNewlines_reads hc₁ h₂
    obtain ⟨hc₃, us, rfl, hcomma⟩ := comma_reads hc₂ h₃
    rcases hcomma with ⟨rfl, rfl⟩ | ⟨rfl, t, nl', rfl, ht, hnl'⟩
    · simp only [Bool.false_eq_true, if_false, bind_eq_ok] at hp
      obtain ⟨b, _, hb, hp⟩ := hp
      cases hb
      split at hp
      · next hclose =>
        simp only [bind_eq_ok] at hp
        obtain ⟨xs', c₄, h₄, hp⟩ := hp
        cases hp
        obtain ⟨rfl, rfl⟩ := members_at_close (by simpa using hclose) h₄
        refine ⟨hc₃, ts ++ nl, ?_, .last hx hnl, by simp, by simpa using hbefore⟩
        simp [← Cursor.back_append]
      · exact absurd hp fail_bind_ne_ok
    · simp only [if_true, bind_eq_ok] at hp
      obtain ⟨xs', c₄, h₄, hp⟩ := hp
      cases hp
      obtain ⟨hc₄, vs, rfl, hxs, hpair, hxs'⟩ := ih (x :: before) hc₃ h₄
      refine ⟨hc₄, _, ?_, .cons hx hnl ht hnl' hxs, .cons (hxs' x (by simp)) hpair, ?_⟩
      · simp [← Cursor.back_append]
      · intro y hy z hz
        rcases List.mem_cons.1 hz with rfl | hz
        · exact hbefore y hy
        · exact hxs' y (by simp [hy]) z hz

theorem membersTo_reads {member : List α → Parser α} {M : Phrases α} {R : α → α → Prop}
    (h : ∀ before, Reads (member before) fun ts x => M ts x ∧ ∀ y ∈ before, R y x)
    (n : Nat) (close : Mark) (want wantClose : Want) :
    Reads (membersTo n member close want wantClose) fun ts xs =>
      ∃ nl us t, ts = nl ++ (us ++ [t]) ∧ Newlines nl ∧ Members M us xs ∧ xs.Pairwise R ∧ t.kind = .mark close := by
  intro c c' xs hc hp
  simp only [membersTo, bind_eq_ok] at hp
  obtain ⟨_, c₁, h₁, xs', c₂, h₂, t, c₃, h₃, hp⟩ := hp
  cases hp
  obtain ⟨hc₁, nl, rfl, hnl⟩ := skipNewlines_reads hc h₁
  obtain ⟨hc₂, us, rfl, hxs, hpair, -⟩ := members_reads h close want _ _ hc₁ h₂
  obtain ⟨hc₃, _, rfl, rfl, ht⟩ := expect_reads (by simp) wantClose hc₂ h₃
  refine ⟨hc₃, _, ?_, nl, us, t, rfl, hnl, hxs, hpair, ht⟩
  simp only [← Cursor.back_append]

theorem keySeparator_reads :
    Reads keySeparator fun ts _ => ∃ t, ts = [t] ∧ (t.kind = .mark .colon ∨ t.kind = .mark .assign) := by
  intro c c' u hc hp
  simp only [keySeparator, bind_eq_ok] at hp
  obtain ⟨b, _, hb, b', _, hb', hp⟩ := hp
  cases hb
  cases hb'
  split at hp
  · next hk =>
    simp only [Bool.or_eq_true, beq_iff_eq] at hk
    obtain ⟨c₁, hc₁, hback, hp⟩ := next_bind_reads hc (by rcases hk with hk | hk <;> simp [hk]) hp
    cases hp
    exact ⟨hc₁, _, hback, _, rfl, hk⟩
  · cases hp

theorem key_of_keyText? {t : Token} {key : String} (h : keyText? t = some key) : Key t key := by
  unfold keyText? at h
  split at h
  · next hk => cases h; exact .name (.inl hk)
  · next k hk => cases h; exact .name (.inr ⟨k, hk⟩)
  · next hk => cases h; exact .string hk
  · cases h

theorem atom_ofName {t : Token} (ht : t.kind = .identifier) : Atom t (ofName t.text) := by
  unfold ofName
  split
  · next htrue => exact .true ht htrue
  · next htrue =>
    split
    · next hfalse => exact .false ht hfalse
    · next hfalse => exact .identifier ht htrue hfalse

section Nested

variable {inner : Parser Expr} {E : Phrases Expr} (h : Reads inner E)
include h

theorem namedArgument_reads (before : List Argument) :
    Reads (namedArgument inner before) fun ts a => NamedArgument E ts a ∧ ∀ b ∈ before, b.name ≠ a.name := by
  intro c c' a hc hp
  simp only [namedArgument, bind_eq_ok] at hp
  obtain ⟨t, _, ht, name, c₁, h₁, assign, c₂, h₂, value, c₃, h₃, hp⟩ := hp
  cases ht
  obtain ⟨hc₁, _, rfl, t, rfl, hname, rfl⟩ := expectName_reads _ hc h₁
  obtain ⟨hc₂, _, rfl, rfl, hassign⟩ := expect_reads (by simp) _ hc₁ h₂
  obtain ⟨hc₃, ts, rfl, hvalue⟩ := h hc₂ h₃
  split at hp
  · exact absurd hp duplicate_bind_ne_ok
  · next hfresh =>
    cases hp
    refine ⟨hc₃, _, ?_, .mk hname hassign hvalue, ?_⟩
    · simp [← Cursor.back_append]
    · intro b hb heq
      exact hfresh (List.any_eq_true.2 ⟨b, hb, by simpa [Argument.isNamed] using heq⟩)

theorem soleArgument_reads :
    Reads (soleArgument inner) fun ts args =>
      ∃ us t, ts = us ++ [t] ∧ Arguments E us args ∧ t.kind = .mark .rparen := by
  intro c c' args hc hp
  simp only [soleArgument, bind_eq_ok] at hp
  obtain ⟨value, c₁, h₁, _, c₂, h₂, b, c₃, h₃, t, c₄, h₄, hp⟩ := hp
  cases hp
  obtain ⟨hc₁, ts, rfl, hvalue⟩ := h hc h₁
  obtain ⟨hc₂, nl, rfl, hnl⟩ := skipNewlines_reads hc₁ h₂
  obtain ⟨hc₃, us, rfl, hcomma⟩ := comma_reads hc₂ h₃
  obtain ⟨hc₄, _, rfl, rfl, ht⟩ := expect_reads (by simp) _ hc₃ h₄
  rcases hcomma with ⟨-, rfl⟩ | ⟨-, comma, nl', rfl, hcomma, hnl'⟩
  · refine ⟨hc₄, _, ?_, ts ++ nl, t, rfl, .sole hvalue hnl, ht⟩
    simp [← Cursor.back_append]
  · refine ⟨hc₄, _, ?_, ts ++ (nl ++ comma :: nl'), t, rfl, .soleComma hvalue hnl hcomma hnl', ht⟩
    simp [← Cursor.back_append]

theorem arguments_reads (n : Nat) : Reads (arguments n inner) (Bracketed .lparen .rparen (Arguments E)) := by
  intro c c' args hc hp
  simp only [arguments, bind_eq_ok] at hp
  obtain ⟨o, c₁, h₁, _, c₂, h₂, b, _, hb, hp⟩ := hp
  cases hb
  obtain ⟨hc₁, _, rfl, rfl, ho⟩ := expect_reads (by simp) _ hc h₁
  obtain ⟨hc₂, nl, rfl, hnl⟩ := skipNewlines_reads hc₁ h₂
  split at hp
  · obtain ⟨hc', ts, rfl, nl', us, t, rfl, hnl', hargs, hpair, ht⟩ :=
      membersTo_reads (namedArgument_reads h) _ _ _ _ hc₂ hp
    refine ⟨hc', _, ?_, .mk ho (hnl.append hnl') (.named hargs (List.pairwise_map.2 hpair)) ht⟩
    simp [← Cursor.back_append]
  · obtain ⟨hc', ts, rfl, us, t, rfl, hargs, ht⟩ := soleArgument_reads h hc₂ hp
    refine ⟨hc', _, ?_, .mk ho hnl hargs ht⟩
    simp [← Cursor.back_append]

theorem call_reads (n : Nat) (name : String) :
    Reads (call n inner name) fun ts m =>
      ∃ args, Bracketed .lparen .rparen (Arguments E) ts args ∧ m = ⟨name, args, none⟩ := by
  intro c c' m hc hp
  simp only [call, bind_eq_ok] at hp
  obtain ⟨args, c₁, h₁, hp⟩ := hp
  cases hp
  obtain ⟨hc₁, ts, hts, hargs⟩ := arguments_reads h n hc h₁
  exact ⟨hc₁, ts, hts, args, hargs, rfl⟩

theorem entry_reads (before : List (String × Expr)) :
    Reads (entry inner before) fun ts a => ObjectEntry E ts a ∧ ∀ b ∈ before, b.1 ≠ a.1 := by
  intro c c' a hc hp
  simp only [entry, bind_eq_ok] at hp
  obtain ⟨t, _, ht, hp⟩ := hp
  cases ht
  obtain ⟨key, hkey⟩ : ∃ key, keyText? c.current = some key := by
    cases hkey : keyText? c.current with
    | none => rw [hkey] at hp; cases hp
    | some key => exact ⟨key, rfl⟩
  simp only [hkey] at hp
  have hk := key_of_keyText? hkey
  obtain ⟨c₁, hc₁, hback, hp⟩ := next_bind_reads hc hk.ne_eof hp
  simp only [bind_eq_ok] at hp
  obtain ⟨_, c₂, h₂, value, c₃, h₃, hp⟩ := hp
  obtain ⟨hc₂, _, hsep, sep, rfl, hs⟩ := keySeparator_reads hc₁ h₂
  obtain ⟨hc₃, ts, rfl, hvalue⟩ := h hc₂ h₃
  split at hp
  · exact absurd hp duplicate_bind_ne_ok
  · next hfresh =>
    cases hp
    refine ⟨hc₃, c.current :: sep :: ts, ?_, .mk hk hs hvalue, ?_⟩
    · rw [Cursor.back_cons, Cursor.back_cons c' sep, ← hsep]
      exact hback
    · intro b hb heq
      exact hfresh (List.any_eq_true.2 ⟨b, hb, by simpa using heq⟩)

theorem listLiteral_reads (n : Nat) : Reads (listLiteral n inner) (Layer E) := by
  intro c c' e hc hp
  simp only [listLiteral, bind_eq_ok] at hp
  obtain ⟨o, c₁, h₁, items, c₂, h₂, hp⟩ := hp
  cases hp
  obtain ⟨hc₁, _, rfl, rfl, ho⟩ := expect_reads (by simp) _ hc h₁
  obtain ⟨hc₂, _, rfl, nl, us, t, rfl, hnl, hitems, -, ht⟩ :=
    membersTo_reads (R := fun _ _ => True) (fun _ => h.mono fun _ _ hE => ⟨hE, by simp⟩) _ _ _ _ hc₁ h₂
  refine ⟨hc₂, _, ?_, .list (.mk ho hnl hitems ht)⟩
  simp [← Cursor.back_append]

theorem objectLiteral_reads (n : Nat) : Reads (objectLiteral n inner) (Layer E) := by
  intro c c' e hc hp
  simp only [objectLiteral, bind_eq_ok] at hp
  obtain ⟨o, c₁, h₁, entries, c₂, h₂, hp⟩ := hp
  cases hp
  obtain ⟨hc₁, _, rfl, rfl, ho⟩ := expect_reads (by simp) _ hc h₁
  obtain ⟨hc₂, _, rfl, nl, us, t, rfl, hnl, hentries, hpair, ht⟩ := membersTo_reads (entry_reads h) _ _ _ _ hc₁ h₂
  refine ⟨hc₂, _, ?_, .object (.mk ho hnl (.mk hentries (List.pairwise_map.2 hpair)) ht)⟩
  simp [← Cursor.back_append]

/-- A name is read alone or with the arguments that follow it. -/
theorem named_reads (n : Nat) {t : Token} {alone : Expr} (ht : IsCallee t) (halone : Atom t alone) :
    Reads (named n inner t.text alone) fun ts e => Layer E (t :: ts) e := by
  intro c c' e hc hp
  simp only [named, bind_eq_ok] at hp
  obtain ⟨b, _, hb, hp⟩ := hp
  cases hb
  split at hp
  · simp only [bind_eq_ok] at hp
    obtain ⟨m, c₁, h₁, hp⟩ := hp
    cases hp
    obtain ⟨hc₁, ts, rfl, args, hargs, rfl⟩ := call_reads h n _ hc h₁
    exact ⟨hc₁, ts, rfl, .call ht hargs⟩
  · cases hp
    exact ⟨hc, [], rfl, .atom halone⟩

/-- The same, from the name on. -/
theorem next_named_reads (n : Nat) {c c' : Cursor} {alone e : Expr} (hc : c.Closed) (ht : IsCallee c.current)
    (halone : Atom c.current alone) (hp : (next >>= fun _ => named n inner c.current.text alone) c = .ok (e, c')) :
    c'.Closed ∧ ∃ ts, c = c'.back ts ∧ Layer E ts e := by
  obtain ⟨c₁, hc₁, hback, hp⟩ := next_bind_reads hc ht.ne_eof hp
  obtain ⟨hc', ts, rfl, he⟩ := named_reads h n ht halone hc₁ hp
  exact ⟨hc', c.current :: ts, hback.trans (Cursor.back_cons ..).symm, he⟩

omit h in
theorem next_atom_reads {c c' : Cursor} {atom e : Expr} (hc : c.Closed) (hk : c.current.kind ≠ .eof)
    (hatom : Atom c.current atom) (hp : (next >>= fun _ => pure atom) c = .ok (e, c')) :
    c'.Closed ∧ ∃ ts, c = c'.back ts ∧ Layer E ts e := by
  obtain ⟨c₁, hc₁, hback, hp⟩ := next_bind_reads hc hk hp
  cases hp
  exact ⟨hc₁, _, hback, .atom hatom⟩

theorem exprWith_reads (n : Nat) : Reads (exprWith n inner) (Layer E) := by
  intro c c' e hc hp
  simp only [exprWith, bind_eq_ok] at hp
  obtain ⟨t, _, ht, hp⟩ := hp
  cases ht
  cases hk : c.current.kind with
  | identifier =>
    rw [hk] at hp
    exact next_named_reads h n hc (.inl hk) (atom_ofName hk) hp
  | keyword k =>
    simp only [hk] at hp
    split at hp
    · next hcomponent =>
      exact next_named_reads h n hc (.inr ⟨k, hk, hcomponent⟩) (.component hk hcomponent) hp
    · cases hp
  | string =>
    rw [hk] at hp
    exact next_atom_reads hc (by simp [hk]) (.string hk) hp
  | number =>
    simp only [hk, numberLiteral] at hp
    cases hv : Double.read? c.current.text with
    | none => rw [hv] at hp; cases hp
    | some v =>
      rw [hv] at hp
      exact next_atom_reads hc (by simp [hk]) (.number hk hv) hp
  | templateVar =>
    rw [hk] at hp
    exact next_atom_reads hc (by simp [hk]) (.templateVar hk) hp
  | newline => rw [hk] at hp; cases hp
  | eof => rw [hk] at hp; cases hp
  | mark m =>
    rw [hk] at hp
    cases m with
    | lbrace => exact objectLiteral_reads h n hc hp
    | lbracket => exact listLiteral_reads h n hc hp
    | _ => cases hp

end Nested

theorem exprTo_reads (n : Nat) : Reads (exprTo n) Value := by
  induction n with
  | zero => intro c c' e hc hp; cases hp
  | succ n ih => exact (exprWith_reads ih n).mono fun _ _ => .of

theorem expr_reads (n : Nat) : Reads (expr n) Value := exprTo_reads (n + 1)

end ChainCompiler.Parser
