import ChainCompiler.Proofs.Completeness.Expr
import ChainCompiler.Proofs.Viability.Stalling

/-! Where the expression parsers fail, what they read can be completed to an expression. A list of members can be
completed as long as the member that it breaks off in has a name of its own, and the open brackets tell whether it
has. -/

namespace ChainCompiler

namespace Nesting

/-- Here a brace opens an object. -/
def AtValue (n : Nesting) : Prop := n.last ≠ some (.mark .rparen) ∧ n.last ≠ some .identifier

/-- The innermost open bracket is as `P` says. -/
def Innermost (P : Bracket → Prop) (n : Nesting) : Prop := ∃ b bs, n.brackets = b :: bs ∧ P b

/-- A member starts here, in a bracket as `P` says. -/
def Starts (P : Bracket → Prop) (n : Nesting) : Prop := n.AtStart ∧ n.Innermost P

variable {n : Nesting}

theorem AtStart.atValue (h : n.AtStart) : n.AtValue := by
  obtain ⟨k, hk, hlast⟩ := h
  rw [AtValue, hlast]
  constructor
  · rintro ⟨⟩
    exact absurd hk (by decide)
  · rintro ⟨⟩
    exact absurd hk (by decide)

theorem atValue_read {t : Token} {m : Mark} (ht : t.kind = .mark m) (hm : m ≠ .rparen) : (n.read t).AtValue := by
  rw [AtValue, last_read (by simp [ht]), ht]
  simp [hm]

/-- After a bracket and newlines the first member starts. -/
theorem starts_of_opened {o : Token} {m : Mark} {nl : List Token} {enclosure : Enclosure} (ho : o.kind = .mark m)
    (hm : n.opened? m = some enclosure) (hstarter : Kind.mark m ∈ starters) (hnl : Grammar.Newlines nl) :
    (n.reads (o :: nl)).Starts (· = ⟨enclosure, []⟩) := by
  rw [reads_cons, reads_newlines hnl]
  exact ⟨atStart_read (ho ▸ hstarter), _, _, brackets_read_open ho hm, rfl⟩

/-- After a comma and newlines the next member starts. -/
theorem Innermost.starts_after_comma {P : Bracket → Prop} (h : n.Innermost P) {t : Token} {nl : List Token}
    (ht : t.kind = .mark .comma) (hnl : Grammar.Newlines nl) : (n.reads (t :: nl)).Starts P := by
  obtain ⟨b, bs, hn, hb⟩ := h
  rw [reads_cons, reads_newlines hnl]
  refine ⟨atStart_read (ht ▸ by decide), b, bs, ?_, hb⟩
  rw [brackets_read_mark ht (fun _ => rfl) rfl, hn]

section Member

variable {P : Bracket → Prop} {t : Token} {us : List Token}

/-- The name of a whole member stays with the bracket around it. -/
theorem Starts.innermost_note (h : n.Starts P) (ht : t.kind ≠ .newline) (hmark : ∀ m, t.kind ≠ .mark m)
    (hus : Level us) : (n.reads (t :: us)).Innermost fun b => ∃ b₀, P b₀ ∧ b = b₀.note t := by
  obtain ⟨hstart, b, bs, hn, hb⟩ := h
  have hsame := hus.2 (n.read t) (.inl (not_atStart_read ht (Grammar.not_starter hmark)))
  exact ⟨b.note t, bs, hsame.trans (brackets_read_start ht hmark hstart hn), b, hb, rfl⟩

/-- The same when the member is broken off. -/
theorem Starts.nodup_note (h : n.Starts P) (ht : t.kind ≠ .newline) (hmark : ∀ m, t.kind ≠ .mark m) (hus : Inside us)
    (hdistinct : (n.reads (t :: us)).Distinct) : ∃ b, P b ∧ (b.note t).names.Nodup := by
  obtain ⟨hstart, b, bs, hn, hb⟩ := h
  obtain ⟨own, b', hb', hsame⟩ := hus _ _ _ (brackets_read_start ht hmark hstart hn)
  refine ⟨b, hb, ?_⟩
  rw [← hsame (not_atStart_read ht (Grammar.not_starter hmark))]
  apply hdistinct
  rw [reads_cons, hb']
  simp

end Member

end Nesting

namespace Parser

open Grammar

/-- Members that may come after those of `before`. -/
def Further {α : Type} (M : Phrases α) (R : α → α → Prop) (before : List α) (ts : List Token) : Prop :=
  ∃ xs, Members M ts xs ∧ xs.Pairwise R ∧ ∀ y ∈ before, ∀ x ∈ xs, R y x

/-- What comes after an opening bracket: newlines, a phrase of `L` and the closing bracket. -/
def Remainder {α : Type} (close : Mark) (L : Phrases α) (ts : List Token) : Prop :=
  ∃ nl us t x, ts = nl ++ (us ++ [t]) ∧ Newlines nl ∧ L us x ∧ t.kind = .mark close

section Members

variable {α : Type} {M : Phrases α} {R : α → α → Prop} {F : List α → Bracket → Prop} {member : List α → Parser α}

theorem Further.nil {before : List α} : Further M R before [] := ⟨[], .nil, .nil, by simp⟩

theorem Further.last {before : List α} {ts nl : List Token} {x : α} (hx : M ts x) (hbefore : ∀ y ∈ before, R y x)
    (hnl : Newlines nl) : Further M R before (ts ++ nl) :=
  ⟨[x], .last hx hnl, by simp, by simpa using hbefore⟩

theorem Further.single {before : List α} {ts : List Token} {x : α} (hx : M ts x) (hbefore : ∀ y ∈ before, R y x) :
    Further M R before ts := by
  have hlast := Further.last hx hbefore newlines_nil
  rwa [List.append_nil] at hlast

theorem Further.cons {before : List α} {ts nl nl' us : List Token} {t : Token} {x : α} (hx : M ts x)
    (hbefore : ∀ y ∈ before, R y x) (hnl : Newlines nl) (ht : t.kind = .mark .comma) (hnl' : Newlines nl')
    (h : Further M R (x :: before) us) : Further M R before (ts ++ (nl ++ t :: (nl' ++ us))) := by
  obtain ⟨xs, hxs, hpair, hfresh⟩ := h
  refine ⟨x :: xs, .cons hx hnl ht hnl' hxs, .cons (hfresh x (by simp)) hpair, ?_⟩
  intro y hy z hz
  rcases List.mem_cons.1 hz with rfl | hz
  · exact hbefore y hy
  · exact hfresh y (by simp [hy]) z hz

/-- At the closing bracket, members do not get beyond it. -/
theorem members_stalls_at_close {close : Mark} {want want' : Want} {n : Nat} {before : List α} {c : Cursor} {t : Token}
    (hk : c.current.kind = .mark close) (h : members member close want n before c = .error (.unexpected want' t)) :
    t = c.current := by
  cases n with
  | zero =>
    cases h
    rfl
  | succ n =>
    rw [members, isAt_bind, if_pos (by simp [hk])] at h
    cases h

/-- The goal for members: `F` says what the names in a bracket are after the members that were read. -/
abbrev BeginsMembers (M : Phrases α) (R : α → α → Prop) (F : List α → Bracket → Prop) (before : List α) :
    List Token → Prop :=
  Begins Under (Nesting.Starts (F before)) (Further M R before)

theorem beginsMembers_nil {before : List α} : BeginsMembers M R F before [] := ⟨Loose.nil.under, .of_viable (.of .nil)⟩

/-- A whole member and a comma in front of members that are broken off. -/
theorem beginsMembers_cons {before : List α} {ts nl nl' us : List Token} {t : Token} {x : α}
    (hloose : Loose ts) (htracks : ∀ n, Nesting.Starts (F before) n → (n.reads ts).Innermost (F (x :: before)))
    (hx : M ts x) (hbefore : ∀ y ∈ before, R y x) (hnl : Newlines nl) (ht : t.kind = .mark .comma)
    (hnl' : Newlines nl') (h : BeginsMembers M R F (x :: before) us) :
    BeginsMembers M R F before (ts ++ (nl ++ (t :: nl' ++ us))) := by
  obtain ⟨hunder, hcompletable⟩ := h
  have hcomma : Under (t :: nl' ++ us) := ((Loose.comma ht).append (.newlines hnl')).append_under hunder
  refine ⟨hloose.append_under ((Loose.newlines hnl).append_under hcomma), ?_⟩
  rw [← List.append_assoc nl, ← List.append_assoc ts]
  refine hcompletable.behind _ (fun n hn => ?_) fun vs hvs => ?_
  · rw [Nesting.reads_append, Nesting.reads_append, Nesting.reads_newlines hnl]
    exact (htracks n hn).starts_after_comma ht hnl'
  · have hcons := Further.cons hx hbefore hnl ht hnl' hvs
    simpa using hcons

variable (hreads : ∀ before, Reads (member before) fun ts x => M ts x ∧ ∀ y ∈ before, R y x)
  (hloose : ∀ ts x, M ts x → Loose ts)
  (htracks : ∀ before ts x n, M ts x → Nesting.Starts (F before) n → (n.reads ts).Innermost (F (x :: before)))
  (hstalls : ∀ before, Stalls (member before) (BeginsMembers M R F before))
include hreads hloose htracks hstalls

theorem members_stalls (close : Mark) (want : Want) :
    ∀ n before, Stalls (members member close want n before) (BeginsMembers M R F before) := by
  intro n
  induction n with
  | zero => exact fun before => .fail beginsMembers_nil
  | succ n ih =>
    intro before
    rw [members]
    refine .peek (fun _ => ⟨_, rfl⟩) fun b => ?_
    split
    · exact .pure
    refine .bind (hreads before) (hstalls before) ?_
    rintro ts x ⟨hx, hbefore⟩
    refine .bind skipNewlines_reads .skipNewlines fun nl _ hnl => .bind comma_reads .comma ?_
    -- a whole member, and nothing that could follow it
    have hlast : BeginsMembers M R F before (ts ++ (nl ++ [])) := by
      rw [List.append_nil]
      exact ⟨((hloose _ _ hx).append (.newlines hnl)).under, .of_viable (.of (.last hx hbefore hnl))⟩
    rintro _ _ (⟨rfl, rfl⟩ | ⟨rfl, t, nl', rfl, ht, hnl'⟩)
    · simp only [Bool.false_eq_true, if_false]
      intro c want' t hc hp
      rw [isAt_bind] at hp
      split at hp
      · next hclose =>
        rcases bind_eq_error.1 hp with hmore | ⟨_, _, _, hpure⟩
        · obtain rfl := members_stalls_at_close (by simpa using hclose) hmore
          exact ⟨[], c.stopsAt_current, hlast⟩
        · cases hpure
      · exact Stalls.fail_bind (G := fun us => BeginsMembers M R F before (ts ++ (nl ++ ([] ++ us)))) hlast hc hp
    · simp only [if_true]
      refine .bind (members_reads hreads close want n _) ((ih (x :: before)).imp fun us hus => ?_) fun _ _ _ => .pure
      exact beginsMembers_cons (hloose _ _ hx) (fun m => htracks before ts x m hx) hx hbefore hnl ht hnl' hus

theorem membersTo_stalls (n : Nat) (close : Mark) (want wantClose : Want) :
    Stalls (membersTo n member close want wantClose)
      (Begins Under (Nesting.Starts (F [])) (Remainder close fun ts xs => Members M ts xs ∧ xs.Pairwise R)) := by
  rw [membersTo]
  refine .bind skipNewlines_reads .skipNewlines fun nl _ hnl => ?_
  refine .bind (members_reads hreads close want _ _) ((members_stalls hreads hloose htracks hstalls _ _ _ _).imp ?_) ?_
  · rintro us ⟨hunder, hcompletable⟩
    refine ⟨(Loose.newlines hnl).append_under hunder, ?_⟩
    refine hcompletable.behind_then nl (fun m hm => by rwa [Nesting.reads_newlines hnl]) [.mark close] rfl ?_
    rintro vs ws ⟨xs, hxs, hpair, -⟩ hws
    obtain ⟨t, rfl, ht⟩ := List.map_eq_singleton_iff.1 hws
    exact ⟨nl, vs, t, xs, rfl, hnl, ⟨hxs, hpair⟩, ht⟩
  rintro us xs ⟨hxs, hpair, -⟩
  refine .bind (expect_reads (by simp) _) (.expect ⟨?_, .of_viable ?_⟩) fun _ _ _ => .pure
  · exact ((Loose.newlines hnl).append ((loose_of_members hloose hxs).append .nil)).under
  · refine .complete [.mark close] rfl fun ws hws => ?_
    obtain ⟨t, rfl, ht⟩ := List.map_eq_singleton_iff.1 hws
    exact ⟨nl, us, t, xs, by simp, hnl, ⟨hxs, hpair⟩, ht⟩

end Members

abbrev BeginsValue : List Token → Prop := Begins Inside Nesting.AtValue fun ts => ∃ e, Value ts e

theorem value_of_identifier {t : Token} (ht : t.kind = .identifier) : Value [t] (ofName t.text) :=
  .of (.atom (atom_ofName ht))

theorem viable_value : Viable (fun ts => ∃ e, Value ts e) [] := by
  refine .complete [.identifier] rfl fun us hus => ?_
  obtain ⟨t, rfl, ht⟩ := List.map_eq_singleton_iff.1 hus
  exact ⟨_, value_of_identifier ht⟩

theorem beginsValue_nil : BeginsValue [] := ⟨.nil, .of_viable viable_value⟩

theorem atValue_of_separator {n : Nesting} {t : Token} (h : t.kind = .mark .colon ∨ t.kind = .mark .assign) :
    (n.read t).AtValue := by
  rcases h with h | h
  · exact Nesting.atValue_read h (by decide)
  · exact Nesting.atValue_read h (by decide)

section Keyed

/-! A member with a key: a named argument or an object entry. The bracket around it takes note of the key, so that the
member is a new one whenever the bracket has no name twice, however far its value has been read. -/

variable {α : Type} {M : Phrases α} {R : α → α → Prop} {F : List α → Bracket → Prop} {before : List α} {t : Token}
  {x : Expr → α} (ht : t.kind ≠ .newline) (hmark : ∀ m, t.kind ≠ .mark m)
  (hfresh : ∀ b, F before b → (b.note t).names.Nodup → ∀ y ∈ before, ∀ e, R y (x e))
include ht hmark hfresh

theorem begins_key (hM : ∀ sep us e, sep.kind = .mark .assign → Value us e → M (t :: sep :: us) (x e)) :
    BeginsMembers M R F before [t] := by
  refine ⟨(Level.token ht hmark).loose.under, fun n hn hdistinct => ?_⟩
  obtain ⟨b, hb, hnodup⟩ := hn.nodup_note ht hmark .nil hdistinct
  refine .complete [.mark .assign, .identifier] rfl fun us hus => ?_
  simp only [List.map_eq_cons_iff, List.map_eq_nil_iff] at hus
  obtain ⟨sep, _, rfl, hsep, v, _, rfl, hv, rfl⟩ := hus
  have hx := hM sep [v] _ hsep (value_of_identifier hv)
  exact .single hx fun y hy => hfresh b hb hnodup y hy _

theorem begins_keyed {sep : Token} (hsep : sep.kind = .mark .colon ∨ sep.kind = .mark .assign)
    (hM : ∀ us e, Value us e → M (t :: sep :: us) (x e)) {us : List Token} (hus : BeginsValue us) :
    BeginsMembers M R F before (t :: sep :: us) := by
  obtain ⟨hinside, hviable⟩ := hus
  have hlevel : Level [sep] := level_of_separator hsep
  refine ⟨(Level.token ht hmark).loose.append_under (hlevel.loose.append_under hinside.under), fun n hn hdistinct => ?_⟩
  have hrest : Inside (sep :: us) := .cons hlevel (separator_inner hsep).1 (separator_inner hsep).2 hinside
  obtain ⟨b, hb, hnodup⟩ := hn.nodup_note ht hmark hrest hdistinct
  refine (hviable _ (atValue_of_separator hsep) hdistinct).imp [t, sep] ?_
  rintro vs ⟨e, he⟩
  exact .single (hM vs e he) fun y hy => hfresh b hb hnodup y hy e

end Keyed

def NamesOf (before : List Argument) (b : Bracket) : Prop := b = ⟨.arguments, before.reverse.filterMap Argument.name⟩

def KeysOf (before : List (String × Expr)) (b : Bracket) : Prop := b = ⟨.object, before.reverse.map Prod.fst⟩

section Names

variable {t : Token} {names : List String}

theorem note_arguments (ht : IsName t) : Bracket.note ⟨.arguments, names⟩ t = ⟨.arguments, names ++ [t.text]⟩ := by
  simp [Bracket.note, Enclosure.name?, (isNameKind_iff t).2 ht]

theorem note_object {key : String} (ht : keyText? t = some key) :
    Bracket.note ⟨.object, names⟩ t = ⟨.object, names ++ [key]⟩ := by
  simp [Bracket.note, Enclosure.name?, ht]

theorem not_mem_of_nodup {name : String} (h : (names ++ [name]).Nodup) : name ∉ names := by
  intro hmem
  exact (List.nodup_append.1 h).2.2 name hmem name (by simp) rfl

end Names

theorem level_of_keyed {sep : Token} {us : List Token} (hsep : sep.kind = .mark .colon ∨ sep.kind = .mark .assign)
    (h : Level us) : Level (sep :: us) :=
  .cons (level_of_separator hsep) (separator_inner hsep).1 (separator_inner hsep).2 h

section Tracking

variable {E : Phrases Expr} (h : ∀ ts e, E ts e → Level ts)
include h

/-- After a named argument the bracket has its name too. -/
theorem namesOf_namedArgument (before : List Argument) (ts : List Token) (a : Argument) (n : Nesting)
    (ha : NamedArgument E ts a) (hn : n.Starts (NamesOf before)) : (n.reads ts).Innermost (NamesOf (a :: before)) := by
  obtain ⟨hname, hassign, he⟩ := ha
  obtain ⟨_, bs, hbs, _, rfl, rfl⟩ :=
    hn.innermost_note hname.ne_newline hname.ne_mark (level_of_keyed (.inr hassign) (h _ _ he))
  refine ⟨_, bs, hbs, ?_⟩
  rw [note_arguments hname, NamesOf]
  simp

theorem keysOf_entry (before : List (String × Expr)) (ts : List Token) (a : String × Expr) (n : Nesting)
    (ha : ObjectEntry E ts a) (hn : n.Starts (KeysOf before)) : (n.reads ts).Innermost (KeysOf (a :: before)) := by
  obtain ⟨hkey, hsep, he⟩ := ha
  obtain ⟨_, bs, hbs, _, rfl, rfl⟩ := hn.innermost_note hkey.ne_newline hkey.ne_mark (level_of_keyed hsep (h _ _ he))
  refine ⟨_, bs, hbs, ?_⟩
  rw [note_object (keyText?_of_key hkey), KeysOf]
  simp

end Tracking

section Nested

variable {inner : Parser Expr} (hreads : Reads inner Value) (hstalls : Stalls inner BeginsValue)
include hreads hstalls

theorem namedArgument_stalls (before : List Argument) :
    Stalls (namedArgument inner before)
      (BeginsMembers (NamedArgument Value) (fun a b => a.name ≠ b.name) NamesOf before) := by
  rw [namedArgument]
  refine .peek (fun _ => ⟨_, rfl⟩) fun _ => .bind (expectName_reads _) (.expectName beginsMembers_nil) ?_
  rintro _ _ ⟨t, rfl, hname, rfl⟩
  have hfresh : ∀ b, NamesOf before b → (b.note t).names.Nodup → ∀ a ∈ before, Expr → a.name ≠ some t.text := by
    rintro _ rfl hnodup a ha _ heq
    rw [note_arguments hname] at hnodup
    exact not_mem_of_nodup hnodup (List.mem_filterMap.2 ⟨a, List.mem_reverse.2 ha, heq⟩)
  refine .bind (expect_reads (by simp) _) (.expect ?_) ?_
  · exact begins_key (x := fun e => ⟨some t.text, e⟩) hname.ne_newline hname.ne_mark hfresh
      fun _ _ _ hassign he => .mk hname hassign he
  rintro _ assign ⟨rfl, hassign⟩
  refine .bind hreads (hstalls.imp fun us hus => ?_) ?_
  · exact begins_keyed (x := fun e => ⟨some t.text, e⟩) hname.ne_newline hname.ne_mark hfresh (.inr hassign)
      (fun _ _ he => .mk hname hassign he) hus
  · intro us e _
    split
    · exact .duplicate_bind
    · exact .pure

theorem entry_stalls (before : List (String × Expr)) :
    Stalls (entry inner before) (BeginsMembers (ObjectEntry Value) (fun a b => a.1 ≠ b.1) KeysOf before) := by
  intro c want t hc hp
  rw [entry, current_bind] at hp
  cases hkey : keyText? c.current with
  | none =>
    rw [hkey] at hp
    cases hp
    exact ⟨[], c.stopsAt_current, beginsMembers_nil⟩
  | some key =>
  rw [hkey] at hp
  have hk : Key c.current key := key_of_keyText? hkey
  have hfresh : ∀ b, KeysOf before b → (b.note c.current).names.Nodup → ∀ a ∈ before, Expr → a.1 ≠ key := by
    rintro _ rfl hnodup a ha _ heq
    rw [note_object hkey] at hnodup
    exact not_mem_of_nodup hnodup (List.mem_map.2 ⟨a, List.mem_reverse.2 ha, heq⟩)
  refine Stalls.next_bind hk.ne_eof (.bind keySeparator_reads (.keySeparator ?_) ?_) hc hp
  · exact begins_key (x := fun e => (key, e)) hk.ne_newline hk.ne_mark hfresh
      fun _ _ _ hassign he => .mk hk (.inr hassign) he
  rintro _ _ ⟨sep, rfl, hsep⟩
  refine .bind hreads (hstalls.imp fun us hus => ?_) ?_
  · exact begins_keyed (x := fun e => (key, e)) hk.ne_newline hk.ne_mark hfresh hsep (fun _ _ he => .mk hk hsep he) hus
  · intro us e _
    split
    · exact .duplicate_bind
    · exact .pure

theorem soleArgument_stalls :
    Stalls (soleArgument inner) (Begins Under Nesting.AtStart (Remainder .rparen (Arguments Value))) := by
  rw [soleArgument]
  refine .bind hreads (hstalls.imp ?_) fun us e he => ?_
  · rintro us ⟨hinside, hcompletable⟩
    refine ⟨hinside.under, hcompletable.behind_then [] (fun _ hn => hn.atValue) [.mark .rparen] rfl ?_⟩
    rintro vs ws ⟨e, he⟩ hws
    obtain ⟨t, rfl, ht⟩ := List.map_eq_singleton_iff.1 hws
    exact ⟨[], vs ++ [], t, _, by simp, newlines_nil, .sole he newlines_nil, ht⟩
  have hloose := (level_of_value he).loose
  refine .bind skipNewlines_reads .skipNewlines fun nl _ hnl => .bind comma_reads .comma ?_
  rintro _ _ (⟨-, rfl⟩ | ⟨-, comma, nl', rfl, hcomma, hnl'⟩)
  · refine .bind (expect_reads (by simp) _) (.expect ⟨?_, .of_viable ?_⟩) fun _ _ _ => .pure
    · exact (hloose.append ((Loose.newlines hnl).append .nil)).under
    · refine .complete [.mark .rparen] rfl fun ws hws => ?_
      obtain ⟨t, rfl, ht⟩ := List.map_eq_singleton_iff.1 hws
      exact ⟨[], us ++ nl, t, _, by simp, newlines_nil, .sole he hnl, ht⟩
  · refine .bind (expect_reads (by simp) _) (.expect ⟨?_, .of_viable ?_⟩) fun _ _ _ => .pure
    · have hcommas := (Loose.comma hcomma).append (.newlines hnl')
      exact (hloose.append ((Loose.newlines hnl).append (hcommas.append .nil))).under
    · refine .complete [.mark .rparen] rfl fun ws hws => ?_
      obtain ⟨t, rfl, ht⟩ := List.map_eq_singleton_iff.1 hws
      exact ⟨[], us ++ (nl ++ comma :: nl'), t, _, by simp, newlines_nil, .soleComma he hnl hcomma hnl', ht⟩

abbrev BeginsArgs : List Token → Prop := Begins Inside (fun _ => True) fun ts => ∃ args, Args ts args

omit hreads hstalls in
theorem args_nil {o c : Token} (ho : o.kind = .mark .lparen) (hc : c.kind = .mark .rparen) : Args [o, c] [] :=
  .mk ho newlines_nil (Arguments.named .nil .nil) hc

theorem arguments_stalls (n : Nat) : Stalls (arguments n inner) BeginsArgs := by
  rw [arguments]
  refine .bind (expect_reads (by simp) _) (.expect ⟨.nil, .of_viable ?_⟩) ?_
  · refine .complete [.mark .lparen, .mark .rparen] rfl fun us hus => ?_
    simp only [List.map_eq_cons_iff, List.map_eq_nil_iff] at hus
    obtain ⟨o, _, rfl, ho, c, _, rfl, hc, rfl⟩ := hus
    exact ⟨[], args_nil ho hc⟩
  rintro _ o ⟨rfl, ho⟩
  refine .bind skipNewlines_reads .skipNewlines fun nl _ hnl => ?_
  -- what is left after the parenthesis and the newlines
  have hopened : ∀ us, Begins Under (Nesting.Starts (NamesOf [])) (Remainder .rparen (Arguments Value)) us →
      BeginsArgs (o :: (nl ++ us)) := by
    rintro us ⟨hunder, hcompletable⟩
    refine ⟨.opened ho (fun _ => ⟨_, rfl⟩) ((Loose.newlines hnl).append_under hunder), ?_⟩
    refine hcompletable.behind (o :: nl) (fun _ _ => Nesting.starts_of_opened ho rfl (by decide) hnl) ?_
    rintro _ ⟨nl', vs, c, args, rfl, hnl', hargs, hc⟩
    have hphrase : Args (o :: ((nl ++ nl') ++ (vs ++ [c]))) args := .mk ho (hnl.append hnl') hargs hc
    exact ⟨args, by simpa using hphrase⟩
  refine .peek (fun _ => ⟨_, rfl⟩) fun b => ?_
  split
  · have hnamed := membersTo_stalls (namedArgument_reads hreads)
      (fun _ _ => loose_of_namedArgument fun _ _ => level_of_value) (namesOf_namedArgument fun _ _ => level_of_value)
      (namedArgument_stalls hreads hstalls) n .rparen .argumentEnd .argumentsClose
    refine hnamed.imp fun us hus => ?_
    refine hopened us ⟨hus.1, hus.2.behind [] (fun _ hm => hm) ?_⟩
    rintro _ ⟨nl', vs, c, args, rfl, hnl', ⟨hargs, hpair⟩, hc⟩
    exact ⟨nl', vs, c, args, rfl, hnl', .named hargs (List.pairwise_map.2 hpair), hc⟩
  · refine (soleArgument_stalls hreads hstalls).imp fun us hus => ?_
    exact hopened us ⟨hus.1, fun m hm => hus.2 m hm.1⟩

theorem call_stalls (n : Nat) (name : String) : Stalls (call n inner name) BeginsArgs := by
  rw [call]
  exact .bind (arguments_reads hreads n) (arguments_stalls hreads hstalls n) fun _ _ _ => .pure

theorem listLiteral_stalls (n : Nat) : Stalls (listLiteral n inner) BeginsValue := by
  rw [listLiteral]
  refine .bind (expect_reads (by simp) _) (.expect beginsValue_nil) ?_
  rintro _ o ⟨rfl, ho⟩
  have hitem : ∀ before : List Expr, Reads inner fun ts e => Value ts e ∧ ∀ y ∈ before, True :=
    fun before => hreads.mono fun _ _ he => ⟨he, by simp⟩
  have hstart : ∀ before : List Expr,
      Stalls inner (BeginsMembers Value (fun _ _ => True) (fun _ _ => True) before) := by
    intro before
    refine hstalls.imp ?_
    rintro us ⟨hinside, hcompletable⟩
    refine ⟨hinside.under, hcompletable.behind [] (fun _ hm => hm.1.atValue) ?_⟩
    rintro vs ⟨e, he⟩
    exact .single he (by simp)
  have hitems := membersTo_stalls hitem (fun _ _ he => (level_of_value he).loose) (F := fun _ _ => True)
    (fun before ts e m he hm => by
      obtain ⟨-, b, bs, hb, -⟩ := hm
      obtain ⟨b', hb'⟩ := (level_of_value he).loose m b bs hb
      exact ⟨b', bs, hb', trivial⟩)
    hstart n .rbracket .itemEnd .listClose
  refine .bind (membersTo_reads hitem n _ _ _) (hitems.imp ?_) fun _ _ _ => .pure
  rintro us ⟨hunder, hcompletable⟩
  refine ⟨.opened ho (fun _ => ⟨_, rfl⟩) hunder, hcompletable.behind [o] (fun m _ => ?_) ?_⟩
  · obtain ⟨hstart, b, bs, hb, -⟩ := Nesting.starts_of_opened (n := m) ho rfl (by decide) newlines_nil
    exact ⟨hstart, b, bs, hb, trivial⟩
  rintro _ ⟨nl, vs, c, items, rfl, hnl, ⟨hitems, -⟩, hc⟩
  exact ⟨_, .of (.list (.mk ho hnl hitems hc))⟩

theorem objectLiteral_stalls (n : Nat) : Stalls (objectLiteral n inner) BeginsValue := by
  rw [objectLiteral]
  refine .bind (expect_reads (by simp) _) (.expect beginsValue_nil) ?_
  rintro _ o ⟨rfl, ho⟩
  have hentries := membersTo_stalls (entry_reads hreads) (fun _ _ => loose_of_entry fun _ _ => level_of_value)
    (keysOf_entry fun _ _ => level_of_value) (entry_stalls hreads hstalls) n .rbrace .entryEnd .objectClose
  refine .bind (membersTo_reads (entry_reads hreads) n _ _ _) (hentries.imp ?_) fun _ _ _ => .pure
  rintro us ⟨hunder, hcompletable⟩
  refine ⟨.opened ho (fun _ => ⟨_, rfl⟩) hunder, hcompletable.behind [o] (fun m hm => ?_) ?_⟩
  · have hopen : m.opened? .lbrace = some .object := by
      rw [Nesting.opened?, if_neg (not_or.2 hm)]
    exact Nesting.starts_of_opened ho hopen (by decide) newlines_nil
  rintro _ ⟨nl, vs, c, entries, rfl, hnl, ⟨hentries, hpair⟩, hc⟩
  exact ⟨_, .of (.object (.mk ho hnl (.mk hentries (List.pairwise_map.2 hpair)) hc))⟩

/-- After the name of a call its arguments come. -/
theorem named_stalls (n : Nat) {t : Token} (ht : IsCallee t) (alone : Expr) :
    Stalls (named n inner t.text alone) fun ts => BeginsValue (t :: ts) := by
  rw [named]
  refine .peek (fun _ => ⟨_, rfl⟩) fun b => ?_
  split
  · refine .bind (call_reads hreads n _) ((call_stalls hreads hstalls n _).imp ?_) fun _ _ _ => .pure
    rintro us ⟨hinside, hcompletable⟩
    have hname := ht.isName
    refine ⟨.cons (.token hname.ne_newline hname.ne_mark) hname.ne_newline (not_starter hname.ne_mark) hinside, ?_⟩
    refine hcompletable.behind [t] (fun _ _ => trivial) ?_
    rintro vs ⟨args, hargs⟩
    exact ⟨_, .of (.call ht hargs)⟩
  · exact .pure

theorem exprWith_stalls (n : Nat) : Stalls (exprWith n inner) BeginsValue := by
  intro c want t hc hp
  rw [exprWith, current_bind] at hp
  cases hk : c.current.kind with
  | identifier =>
    rw [hk] at hp
    exact Stalls.next_bind (by simp [hk]) (named_stalls hreads hstalls n (.inl hk) _) hc hp
  | keyword k =>
    simp only [hk] at hp
    split at hp
    · next hcomponent =>
      exact Stalls.next_bind (by simp [hk]) (named_stalls hreads hstalls n (.inr ⟨k, hk, hcomponent⟩) _) hc hp
    · exact Stalls.fail beginsValue_nil hc hp
  | string => rw [hk] at hp; cases hp
  | number =>
    simp only [hk, numberLiteral] at hp
    cases hv : Double.read? c.current.text with
    | none =>
      rw [hv] at hp
      cases hp
      exact ⟨[], c.stopsAt_current, beginsValue_nil⟩
    | some v => rw [hv] at hp; cases hp
  | templateVar => rw [hk] at hp; cases hp
  | newline => rw [hk] at hp; exact Stalls.fail beginsValue_nil hc hp
  | eof => rw [hk] at hp; exact Stalls.fail beginsValue_nil hc hp
  | mark m =>
    rw [hk] at hp
    cases m with
    | lbrace => exact objectLiteral_stalls hreads hstalls n hc hp
    | lbracket => exact listLiteral_stalls hreads hstalls n hc hp
    | _ => exact Stalls.fail beginsValue_nil hc hp

end Nested

theorem exprTo_stalls (n : Nat) : Stalls (exprTo n) BeginsValue := by
  induction n with
  | zero => exact .fail beginsValue_nil
  | succ n ih => exact exprWith_stalls (exprTo_reads n) ih n

theorem expr_stalls (n : Nat) : Stalls (expr n) BeginsValue := exprTo_stalls (n + 1)

end Parser

end ChainCompiler
