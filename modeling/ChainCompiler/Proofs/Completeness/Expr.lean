import ChainCompiler.Parser.Expr
import ChainCompiler.Proofs.Opening

/-! Whatever the grammar derives as an expression is accepted, whole, by the expression parsers, as long as no
opening parenthesis follows that would make a call of it. -/

namespace ChainCompiler

namespace Cursor

/-- No parenthesis that would open a list of arguments comes next. -/
def NoCall (c : Cursor) : Prop := c.current.kind ≠ .mark .lparen

end Cursor

namespace Parser

open Grammar Cursor

variable {α β : Type}

theorem next_back (c : Cursor) (f : Token → Parser β) {t : Token} (ts : List Token) (ht : t.kind ≠ .eof) :
    (next >>= f) (c.back (t :: ts)) = f t (c.back ts) :=
  bind_of_ok f (by rw [← advance_back_cons c ts ht]; rfl)

theorem expect_back (c : Cursor) {k : Kind} (want : Want) (f : Token → Parser β) {t : Token} (ts : List Token)
    (ht : t.kind = k) (hk : k ≠ .eof) : (expect k want >>= f) (c.back (t :: ts)) = f t (c.back ts) := by
  apply bind_of_ok f
  rw [← advance_back_cons c ts (ht ▸ hk)]
  simp [expect, ht]

theorem skipNewlines_back_bind {c : Cursor} (f : Unit → Parser β) {nl : List Token} (hnl : Newlines nl)
    (hc : c.current.kind ≠ .newline) : (skipNewlines >>= f) (c.back nl) = f () c :=
  bind_of_ok f (by rw [← skipNewlines_back hnl hc]; simp [skipNewlines, skipNewlines_back hnl hc])

theorem comma_of_ne {c : Cursor} (hc : c.current.kind ≠ .mark .comma) : comma c = .ok (false, c) := by
  simp [comma, hc]

theorem comma_back {c : Cursor} {t : Token} {nl : List Token} (ht : t.kind = .mark .comma) (hnl : Newlines nl)
    (hc : c.current.kind ≠ .newline) : comma (c.back (t :: nl)) = .ok (true, c) := by
  rw [comma, if_pos (by simpa using ht), advance_back_cons c nl (by simp [ht]), skipNewlines_back hnl hc]

/-- Whatever the language derives with at most `n` tokens is accepted, whole, when no call can be made of it. -/
def Accepts (n : Nat) (P : Parser α) (L : Phrases α) : Prop :=
  ∀ ⦃ts : List Token⦄ ⦃a : α⦄ ⦃c : Cursor⦄, L ts a → ts.length ≤ n → c.NoCall → P (c.back ts) = .ok (a, c)

theorem noCall_back {c : Cursor} {nl : List Token} (hnl : Newlines nl) (hc : c.NoCall) : (c.back nl).NoCall := by
  cases nl with
  | nil => exact hc
  | cons t nl => simp [NoCall, hnl t (by simp)]

theorem noCall_of_eq {c : Cursor} {k : Kind} (h : c.current.kind = k) (hk : k ≠ .mark .lparen) : c.NoCall := by
  rwa [NoCall, h]

theorem members_close (member : List α → Parser α) (want : Want) (m : Nat) (before : List α) {close : Mark} {c : Cursor}
    (hc : c.current.kind = .mark close) : members member close want (m + 1) before c = .ok ([], c) := by
  simp only [members, isAt_bind, hc, beq_self_eq_true, if_true]
  rfl

section Members

variable {member : List α → Parser α} {M : Phrases α} {R : α → α → Prop} {n : Nat} {close : Mark}
  (hmember : ∀ before, Accepts n (member before) fun ts x => M ts x ∧ ∀ y ∈ before, R y x)
  (hopens : ∀ ts x, M ts x → Opens ts) (hclose : isClosing close = true)
include hopens

theorem members_current_ne {ts : List Token} {xs : List α} (h : Members M ts xs) {c : Cursor} {k : Kind}
    (hk : isOpening k = false) (hc : c.current.kind ≠ k) : (c.back ts).current.kind ≠ k := by
  cases h with
  | nil => exact hc
  | last hx _ =>
    rw [back_append]
    exact (hopens _ _ hx).current_ne _ hk
  | cons hx _ _ _ _ =>
    rw [back_append]
    exact (hopens _ _ hx).current_ne _ hk

include hmember hclose

theorem members_accepts (want : Want) {ts : List Token} {xs : List α} (h : Members M ts xs) :
    ∀ (m : Nat) (before : List α) {c : Cursor}, ts.length ≤ n → ts.length < m → xs.Pairwise R →
      (∀ y ∈ before, ∀ x ∈ xs, R y x) → c.current.kind = .mark close →
      members member close want m before (c.back ts) = .ok (xs, c) := by
  have hopen : isOpening (.mark close) = false := by cases close <;> simp_all [isClosing, isOpening]
  have hne : Kind.mark close ≠ .mark .comma := by rintro ⟨⟩; cases hclose
  have hcall : Kind.mark close ≠ .mark .lparen := by rintro ⟨⟩; cases hclose
  induction h with
  | nil =>
    intro m before c _ hm _ _ hc
    obtain ⟨m, rfl⟩ : ∃ k, m = k + 1 := ⟨m - 1, by simp at hm; omega⟩
    exact members_close member want m before hc
  | @last ts nl x hx hnl =>
    intro m before c hn hm _ hbefore hc
    have hpos := (hopens ts x hx).length_pos
    simp only [List.length_append] at hn hm
    obtain ⟨m, rfl⟩ : ∃ k, m = k + 2 := ⟨m - 2, by omega⟩
    rw [members, isAt_bind, back_append, if_neg (by simpa using (hopens ts x hx).current_ne _ hopen),
      bind_of_ok _ (hmember before ⟨hx, by simpa using hbefore⟩ (by omega) (noCall_back hnl (noCall_of_eq hc hcall))),
      skipNewlines_back_bind _ hnl (by simp [hc]), bind_of_ok _ (comma_of_ne (hc ▸ hne)), if_neg (by simp), isAt_bind,
      if_pos (by simp [hc])]
    exact bind_of_ok _ (members_close member want m (x :: before) hc)
  | @cons ts nl comma nl' us x xs hx hnl hcomma hnl' hxs ih =>
    intro m before c hn hm hpair hbefore hc
    have hpos := (hopens ts x hx).length_pos
    simp only [List.length_append, List.length_cons] at hn hm
    obtain ⟨m, rfl⟩ : ∃ k, m = k + 1 := ⟨m - 1, by omega⟩
    have hus : (c.back us).current.kind ≠ .newline := members_current_ne hopens hxs rfl (by simp [hc])
    have hrest : ∀ y ∈ x :: before, ∀ z ∈ xs, R y z := by
      intro y hy z hz
      rcases List.mem_cons.1 hy with rfl | hy
      · exact List.rel_of_pairwise_cons hpair hz
      · exact hbefore y hy z (by simp [hz])
    rw [members, isAt_bind, back_append, if_neg (by simpa using (hopens ts x hx).current_ne _ hopen),
      bind_of_ok _ (hmember before ⟨hx, fun y hy => hbefore y hy x (by simp)⟩ (by omega) ?_), back_append,
      skipNewlines_back_bind _ hnl (by simp [hcomma]), ← List.cons_append, back_append,
      bind_of_ok _ (comma_back hcomma hnl' hus), if_pos rfl]
    · exact bind_of_ok _ (ih m (x :: before) (by omega) (by omega) hpair.of_cons hrest hc)
    · rw [back_append]
      exact noCall_back hnl (by simp [NoCall, hcomma])

theorem membersTo_accepts (want wantClose : Want) (nl : List Token) {ts : List Token} {t : Token} {xs : List α}
    {c : Cursor} (hnl : Newlines nl) (h : Members M ts xs) (hpair : xs.Pairwise R) (ht : t.kind = .mark close)
    (hn : ts.length ≤ n) :
    membersTo n member close want wantClose (c.back (nl ++ (ts ++ [t]))) = .ok (xs, c) := by
  have hts : ((c.back [t]).back ts).current.kind ≠ .newline := members_current_ne hopens h rfl (by simp [ht])
  rw [membersTo, back_append, back_append, skipNewlines_back_bind _ hnl hts,
    bind_of_ok _ (members_accepts hmember hopens hclose want h _ [] hn (by omega) hpair (by simp) (by simpa using ht)),
    expect_back c _ _ [] ht (by simp)]
  rfl

end Members

theorem expectName_back (c : Cursor) (want : Want) (f : String → Parser β) {t : Token} (ts : List Token)
    (ht : IsName t) : (expectName want >>= f) (c.back (t :: ts)) = f t.text (c.back ts) := by
  apply bind_of_ok f
  rw [← advance_back_cons c ts ht.ne_eof]
  simp [expectName, (isNameKind_iff t).2 ht]

theorem expectIdentifier_back (c : Cursor) (want : Want) (f : String → Parser β) {t : Token} (ts : List Token)
    (ht : t.kind = .identifier) : (expectIdentifier want >>= f) (c.back (t :: ts)) = f t.text (c.back ts) := by
  have he : t.kind ≠ .eof := by simp [ht]
  apply bind_of_ok f
  rw [← advance_back_cons c ts he]
  simp [expectIdentifier, ht]

theorem peekKind_back (c : Cursor) (t : Token) (ts : List Token) :
    (c.back (t :: ts)).peekKind = (c.back ts).current.kind := by
  cases ts <;> rfl

def namedNext (c : Cursor) : Bool :=
  c.current.kind == .mark .rparen || (isNameKind c.current.kind && c.peekKind == .mark .assign)

theorem atNamed_bind (f : Bool → Parser β) (c : Cursor) : (atNamed >>= f) c = f (namedNext c) c := rfl

theorem namedNext_of_members {E : Phrases Expr} {ts : List Token} {args : List Argument} {c : Cursor}
    (h : Members (NamedArgument E) ts args) (hc : c.current.kind = .mark .rparen) : namedNext (c.back ts) = true := by
  have hmember : ∀ {us a} (d : Cursor), NamedArgument E us a → namedNext (d.back us) = true := by
    rintro _ _ d ⟨hname, hassign, -⟩
    have := (isNameKind_iff _).2 hname
    simp [namedNext, peekKind_back, hassign, this]
  cases h with
  | nil => simp [namedNext, hc]
  | last h _ => rw [back_append]; exact hmember _ h
  | cons h _ _ _ _ => rw [back_append]; exact hmember _ h

theorem namedNext_of_unnamed {ts : List Token} {c : Cursor} (hopens : Opens ts) (h : Unnamed ts)
    (hc : c.current.kind ≠ .mark .assign) : namedNext (c.back ts) = false := by
  have hclose := hopens.current_ne c (k := .mark .rparen) rfl
  obtain ⟨t, us, rfl, -⟩ := hopens
  have hnext : isNameKind t.kind = true → (c.back us).current.kind ≠ .mark .assign := by
    intro ht
    cases us with
    | nil => exact hc
    | cons u us => exact h t u us rfl ((isNameKind_iff t).1 ht)
  simp only [namedNext, peekKind_back, current_back_cons, Bool.or_eq_false_iff, Bool.and_eq_false_imp,
    beq_eq_false_iff_ne]
  exact ⟨hclose, hnext⟩

theorem keyText?_of_key {t : Token} {key : String} (h : Key t key) : keyText? t = some key := by
  cases h with
  | name h => rcases h with h | ⟨k, h⟩ <;> simp [keyText?, h]
  | string h => simp [keyText?, h]

theorem keySeparator_back (c : Cursor) (f : Unit → Parser β) {t : Token} (ts : List Token)
    (ht : t.kind = .mark .colon ∨ t.kind = .mark .assign) :
    (keySeparator >>= f) (c.back (t :: ts)) = f () (c.back ts) := by
  apply bind_of_ok f
  rw [keySeparator, isAt_bind, isAt_bind, if_pos (by simpa using ht),
    next_back c _ ts (by rcases ht with h | h <;> simp [h])]
  rfl

section Nested

variable {inner : Parser Expr} {E : Phrases Expr} {n : Nat} (hin : Accepts n inner E)
include hin

theorem namedArgument_accepts (before : List Argument) :
    Accepts n (namedArgument inner before) fun ts a => NamedArgument E ts a ∧ ∀ b ∈ before, b.name ≠ a.name := by
  rintro _ _ c ⟨⟨hname, hassign, he⟩, hfresh⟩ hn hc
  simp only [List.length_cons] at hn
  rw [namedArgument, current_bind, expectName_back _ _ _ _ hname, expect_back _ _ _ _ hassign (by simp),
    bind_of_ok _ (hin he (by omega) hc), if_neg]
  · rfl
  · simpa [Argument.isNamed] using hfresh

theorem entry_accepts (before : List (String × Expr)) :
    Accepts n (entry inner before) fun ts a => ObjectEntry E ts a ∧ ∀ b ∈ before, b.1 ≠ a.1 := by
  rintro _ _ c ⟨⟨hkey, hsep, he⟩, hfresh⟩ hn hc
  simp only [List.length_cons] at hn
  have he' := hin he (by omega) hc
  simp only [entry, current_bind, current_back_cons, keyText?_of_key hkey]
  rw [next_back _ _ _ hkey.ne_eof, keySeparator_back _ _ _ hsep, bind_of_ok _ he', if_neg]
  · rfl
  · simpa using fun e he => hfresh (_, e) he rfl

theorem objectLiteral_accepts {ts : List Token} {entries : List (String × Expr)} {c : Cursor}
    (h : Bracketed .lbrace .rbrace (Entries E) ts entries) (hn : ts.length ≤ n + 1) :
    objectLiteral n inner (c.back ts) = .ok (.object entries, c) := by
  cases h with
  | @mk o nl us t _ ho hnl hentries ht =>
  obtain ⟨hentries, hnodup⟩ := hentries
  simp only [List.length_cons, List.length_append] at hn
  rw [objectLiteral, expect_back _ _ _ _ ho (by simp), bind_of_ok _ (membersTo_accepts (entry_accepts hin)
    (fun _ _ => opens_of_entry) rfl _ _ nl hnl hentries (List.pairwise_map.1 hnodup) ht (by omega))]
  rfl

variable (hopens : ∀ ts e, E ts e → Opens ts) (hunnamed : ∀ ts e, E ts e → Unnamed ts)

include hopens in
theorem listLiteral_accepts {ts : List Token} {items : List Expr} {c : Cursor}
    (h : Bracketed .lbracket .rbracket (Members E) ts items) (hn : ts.length ≤ n + 1) :
    listLiteral n inner (c.back ts) = .ok (.list items, c) := by
  cases h with
  | @mk o nl us t _ ho hnl hitems ht =>
  simp only [List.length_cons, List.length_append] at hn
  have hmember : ∀ before : List Expr, Accepts n inner fun ts e => E ts e ∧ ∀ y ∈ before, (fun _ _ => True) y e :=
    fun _ _ _ _ he => hin he.1
  have hpair : items.Pairwise fun _ _ => True := List.pairwise_of_forall fun _ _ => trivial
  rw [listLiteral, expect_back _ _ _ _ ho (by simp),
    bind_of_ok _ (membersTo_accepts hmember hopens rfl _ _ nl hnl hitems hpair ht (by omega))]
  rfl

theorem soleArgument_accepts {ts : List Token} {e : Expr} {nl us : List Token} {t : Token} {c : Cursor}
    (he : E ts e) (hn : ts.length ≤ n) (hnl : Newlines nl)
    (hus : us = [] ∨ ∃ comma nl', us = comma :: nl' ∧ comma.kind = .mark .comma ∧ Newlines nl')
    (ht : t.kind = .mark .rparen) :
    soleArgument inner (c.back (ts ++ (nl ++ (us ++ [t])))) = .ok ([⟨none, e⟩], c) := by
  have hkind : (c.back (us ++ [t])).current.kind = .mark .comma ∨
      (c.back (us ++ [t])).current.kind = .mark .rparen := by
    rcases hus with rfl | ⟨comma, nl', rfl, hcomma, hnl'⟩
    · exact .inr ht
    · exact .inl hcomma
  have hcall : (c.back (us ++ [t])).NoCall := by rcases hkind with h | h <;> simp [NoCall, h]
  have hline : (c.back (us ++ [t])).current.kind ≠ .newline := by rcases hkind with h | h <;> simp [h]
  rw [soleArgument, back_append, back_append, bind_of_ok _ (hin he hn (noCall_back hnl hcall)),
    skipNewlines_back_bind _ hnl hline, back_append]
  rcases hus with rfl | ⟨comma, nl', rfl, hcomma, hnl'⟩
  · rw [back_nil, bind_of_ok _ (comma_of_ne (by simp [ht])), expect_back _ _ _ _ ht (by simp)]
    rfl
  · rw [bind_of_ok _ (comma_back hcomma hnl' (by simp [ht])), expect_back _ _ _ _ ht (by simp)]
    rfl

include hopens hunnamed

theorem arguments_accepts {ts : List Token} {args : List Argument} {c : Cursor}
    (h : Bracketed .lparen .rparen (Arguments E) ts args) (hn : ts.length ≤ n) :
    arguments n inner (c.back ts) = .ok (args, c) := by
  cases h with
  | @mk o nl us t _ ho hnl hargs ht =>
  simp only [List.length_cons, List.length_append] at hn
  -- newlines after the parenthesis end at the first argument, or at the closing one
  have hskip : ∀ f : Unit → Parser (List Argument), ((c.back [t]).back us).current.kind ≠ .newline →
      (skipNewlines >>= f) (c.back (nl ++ (us ++ [t]))) = f () ((c.back [t]).back us) := by
    intro f hline
    rw [back_append, back_append, skipNewlines_back_bind f hnl hline]
  rw [arguments, expect_back _ _ _ _ ho (by simp)]
  cases hargs with
  | named hargs hnodup =>
    rw [hskip _ (members_current_ne (fun _ _ => opens_of_namedArgument) hargs rfl (by simp [ht])), atNamed_bind,
      if_pos (namedNext_of_members hargs (by simpa using ht)), ← back_append]
    exact membersTo_accepts (namedArgument_accepts hin) (fun _ _ => opens_of_namedArgument) rfl _ _ []
      newlines_nil hargs (List.pairwise_map.1 hnodup) ht (by omega)
  | @sole ts nl' e he hnl' =>
    have hfollow : ((c.back [t]).back nl').current.kind ≠ .mark .assign := by
      cases nl' with
      | nil => simp [ht]
      | cons u nl' => simp [hnl' u (by simp)]
    rw [List.length_append] at hn
    rw [hskip _ (by rw [back_append]; exact (hopens ts e he).current_ne _ rfl), atNamed_bind, back_append,
      if_neg (by simp [namedNext_of_unnamed (hopens ts e he) (hunnamed ts e he) hfollow])]
    simpa only [← back_append, List.nil_append] using soleArgument_accepts hin (c := c) he (by omega) hnl' (.inl rfl) ht
  | @soleComma ts nl' comma nl'' e he hnl' hcomma hnl'' =>
    have hfollow : ((c.back [t]).back (nl' ++ comma :: nl'')).current.kind ≠ .mark .assign := by
      cases nl' with
      | nil => simp [hcomma]
      | cons u nl' => simp [hnl' u (by simp)]
    rw [List.length_append] at hn
    rw [hskip _ (by rw [back_append]; exact (hopens ts e he).current_ne _ rfl), atNamed_bind, back_append,
      if_neg (by simp [namedNext_of_unnamed (hopens ts e he) (hunnamed ts e he) hfollow])]
    simpa only [← back_append, List.append_assoc] using
      soleArgument_accepts hin (c := c) he (by omega) hnl' (.inr ⟨comma, nl'', rfl, hcomma, hnl''⟩) ht

theorem call_accepts (name : String) {ts : List Token} {args : List Argument} {c : Cursor}
    (h : Bracketed .lparen .rparen (Arguments E) ts args) (hn : ts.length ≤ n) :
    call n inner name (c.back ts) = .ok (⟨name, args, none⟩, c) :=
  bind_of_ok _ (arguments_accepts hin hopens hunnamed h hn)

theorem named_accepts (name : String) (alone : Expr) {ts : List Token} {args : List Argument} {c : Cursor}
    (h : Bracketed .lparen .rparen (Arguments E) ts args) (hn : ts.length ≤ n) :
    named n inner name alone (c.back ts) = .ok (.call ⟨name, args, none⟩, c) := by
  have hcall := call_accepts hin hopens hunnamed (c := c) name h hn
  obtain ⟨t, us, rfl, ht⟩ := h.head
  rw [named, isAt_bind, if_pos (by simpa using ht), bind_of_ok _ hcall]
  rfl

omit hin hopens hunnamed in
theorem named_alone (name : String) (alone : Expr) {c : Cursor} (hc : c.NoCall) :
    named n inner name alone c = .ok (alone, c) := by
  rw [named, isAt_bind, if_neg (by simpa [NoCall] using hc)]
  rfl

omit hin hopens hunnamed in
theorem exprWith_identifier (n : Nat) (c : Cursor) {t : Token} (ts : List Token) (hk : t.kind = .identifier) :
    exprWith n inner (c.back (t :: ts)) = named n inner t.text (ofName t.text) (c.back ts) := by
  simp only [exprWith, current_bind, current_back_cons, hk]
  exact next_back _ _ _ (by simp [hk])

omit hin hopens hunnamed in
theorem exprWith_component (n : Nat) (c : Cursor) {t : Token} {k : Keyword} (ts : List Token) (hk : t.kind = .keyword k)
    (hcomponent : k.isComponent = true) :
    exprWith n inner (c.back (t :: ts)) = named n inner t.text (.identifier t.text) (c.back ts) := by
  simp only [exprWith, current_bind, current_back_cons, hk, if_pos hcomponent]
  exact next_back _ _ _ (by simp [hk])

omit hin hopens hunnamed in
theorem exprWith_atom (n : Nat) {t : Token} {e : Expr} {c : Cursor} (h : Atom t e) (hc : c.NoCall) :
    exprWith n inner (c.back [t]) = .ok (e, c) := by
  cases h with
  | true hk htext =>
    rw [exprWith_identifier n c [] hk, back_nil, named_alone _ _ hc]
    simp [ofName, htext]
  | false hk htext =>
    rw [exprWith_identifier n c [] hk, back_nil, named_alone _ _ hc]
    simp [ofName, htext]
  | identifier hk htrue hfalse =>
    rw [exprWith_identifier n c [] hk, back_nil, named_alone _ _ hc]
    simp [ofName, htrue, hfalse]
  | component hk hcomponent => rw [exprWith_component n c [] hk hcomponent, back_nil, named_alone _ _ hc]
  | string hk =>
    simp only [exprWith, current_bind, current_back_cons, hk]
    exact next_back _ _ _ (by simp [hk])
  | number hk hv =>
    simp only [exprWith, current_bind, current_back_cons, hk, numberLiteral, hv]
    exact next_back _ _ _ (by simp [hk])
  | templateVar hk =>
    simp only [exprWith, current_bind, current_back_cons, hk]
    exact next_back _ _ _ (by simp [hk])

theorem exprWith_accepts : Accepts (n + 1) (exprWith n inner) (Layer E) := by
  intro ts e c h hn hc
  cases h with
  | atom h => exact exprWith_atom n h hc
  | call ht hargs =>
    simp only [List.length_cons] at hn
    rcases ht with hk | ⟨k, hk, hcomponent⟩
    · rw [exprWith_identifier n c _ hk, named_accepts hin hopens hunnamed _ _ hargs (by omega)]
    · rw [exprWith_component n c _ hk hcomponent, named_accepts hin hopens hunnamed _ _ hargs (by omega)]
  | list h =>
    have hlist := listLiteral_accepts hin hopens (c := c) h hn
    obtain ⟨t, us, rfl, ht⟩ := h.head
    simpa only [exprWith, current_bind, current_back_cons, ht] using hlist
  | object h =>
    have hobject := objectLiteral_accepts hin (c := c) h hn
    obtain ⟨t, us, rfl, ht⟩ := h.head
    simpa only [exprWith, current_bind, current_back_cons, ht] using hobject

end Nested

theorem exprTo_accepts (n : Nat) : Accepts n (exprTo n) Value := by
  induction n with
  | zero =>
    intro ts e c h hn hc
    have := (opens_of_value h).length_pos
    omega
  | succ n ih =>
    intro ts e c h hn hc
    obtain ⟨h⟩ := h
    exact exprWith_accepts ih (fun _ _ => opens_of_value) (fun _ _ => unnamed_of_value) h hn hc

theorem expr_accepts (n : Nat) : Accepts (n + 1) (expr n) Value := exprTo_accepts (n + 1)

theorem call_expr_accepts (n : Nat) (name : String) {ts : List Token} {args : List Argument} (c : Cursor)
    (h : Args ts args) (hn : ts.length ≤ n) : call n (expr n) name (c.back ts) = .ok (⟨name, args, none⟩, c) :=
  call_accepts (fun _ _ _ he hlen => expr_accepts n he (Nat.le_succ_of_le hlen)) (fun _ _ => opens_of_value)
    (fun _ _ => unnamed_of_value) name h hn

end Parser

end ChainCompiler
