import ChainCompiler.Proofs.Viability.Pipeline

/-! Wherever a program is broken off, no open list has a name twice. So a beginning that has a name twice in an open
list cannot be completed, and the condition under which the others can is the weakest one. -/

namespace ChainCompiler

namespace Nesting

/-- However many of the tokens are read, no open list has a name twice. -/
def Keeps (n : Nesting) : List Token → Prop
  | [] => n.Distinct
  | t :: ts => n.Distinct ∧ (n.read t).Keeps ts

/-- Here any token may start a member. -/
def Roomy (n : Nesting) : Prop := n.AtStart → ∀ b ∈ n.brackets.head?, ∀ t, (b.note t).names.Nodup

variable {n : Nesting} {ts us : List Token}

theorem Keeps.here (h : n.Keeps ts) : n.Distinct := by
  cases ts with
  | nil => exact h
  | cons t ts => exact h.1

theorem keeps_append : n.Keeps (ts ++ us) ↔ n.Keeps ts ∧ (n.reads ts).Keeps us := by
  induction ts generalizing n with
  | nil => exact ⟨fun h => ⟨h.here, h⟩, And.right⟩
  | cons t ts ih => rw [List.cons_append, Keeps, Keeps, ih, reads_cons, and_assoc]

theorem Keeps.distinct_reads (h : n.Keeps ts) : (n.reads ts).Distinct := by
  rw [← List.append_nil ts] at h
  exact (keeps_append.1 h).2

theorem keeps_newlines (h : n.Distinct) {nl : List Token} (hnl : Grammar.Newlines nl) : n.Keeps nl := by
  induction nl with
  | nil => exact h
  | cons t nl ih =>
    refine ⟨h, ?_⟩
    rw [read, if_pos (hnl t (by simp))]
    exact ih fun u hu => hnl u (by simp [hu])

theorem distinct_of_cons {b : Bracket} {bs : List Bracket} (hn : n.brackets = b :: bs) (hb : b.names.Nodup)
    (hbs : ∀ c ∈ bs, c.names.Nodup) : n.Distinct := by
  intro c hc
  rw [hn] at hc
  rcases List.mem_cons.1 hc with rfl | hc
  · exact hb
  · exact hbs c hc

theorem Distinct.of_brackets_eq {m : Nesting} (h : n.Distinct) (heq : m.brackets = n.brackets) : m.Distinct := by
  intro b hb
  exact h b (heq ▸ hb)

section Read

variable {t : Token}

theorem Distinct.read_open {m : Mark} {enclosure : Enclosure} (h : n.Distinct) (ht : t.kind = .mark m)
    (hm : n.opened? m = some enclosure) : (n.read t).Distinct :=
  distinct_of_cons (brackets_read_open ht hm) .nil h

theorem Distinct.read_close {m : Mark} (h : n.Distinct) (ht : t.kind = .mark m) (hm : isClosing m = true) :
    (n.read t).Distinct := by
  intro b hb
  rw [brackets_read_close ht hm] at hb
  exact h b (List.mem_of_mem_tail hb)

theorem Distinct.read_token (h : n.Distinct) (hroom : n.Roomy) (ht : t.kind ≠ .newline)
    (hmark : ∀ m, t.kind ≠ .mark m) : (n.read t).Distinct := by
  by_cases hstart : n.AtStart
  · cases hn : n.brackets with
    | nil => exact h.of_brackets_eq (brackets_read_plain ht hmark (by simp [Plain, hn]))
    | cons b bs =>
      refine distinct_of_cons (brackets_read_start ht hmark hstart hn) (hroom hstart b (by simp [hn]) t) fun c hc => ?_
      exact h c (by simp [hn, hc])
  · exact h.of_brackets_eq (brackets_read_inner ht hmark hstart)

end Read

theorem roomy_of_not_atStart (h : ¬n.AtStart) : n.Roomy := fun hstart => absurd hstart h

theorem Plain.roomy (h : n.Plain) (hn : n.Distinct) : n.Roomy := by
  intro _ b hb t
  rw [Bracket.note_plain (h b hb)]
  exact hn b (List.mem_of_mem_head? hb)

/-- The first member of a list may have any name. -/
theorem Starts.roomy {enclosure : Enclosure} (h : n.Starts (· = ⟨enclosure, []⟩)) : n.Roomy := by
  obtain ⟨-, _, bs, hn, rfl⟩ := h
  intro _ b hb t
  obtain rfl : _ = b := by simpa [hn] using hb
  cases hname : enclosure.name? t <;> simp [Bracket.note, hname]

/-- What stands between brackets, with its brackets. -/
theorem keeps_bracketed {o c : Token} {m m' : Mark} {nl : List Token} {enclosure : Enclosure} (hn : n.Distinct)
    (ho : o.kind = .mark m) (hm : n.opened? m = some enclosure) (hstarter : Kind.mark m ∈ starters)
    (hnl : Grammar.Newlines nl) (hc : c.kind = .mark m') (hm' : isClosing m' = true)
    (h : ∀ k : Nesting, k.Starts (· = ⟨enclosure, []⟩) → k.Distinct → k.Keeps ts) :
    n.Keeps (o :: (nl ++ (ts ++ [c]))) := by
  have hopen : (n.read o).Distinct := hn.read_open ho hm
  have hstarts := starts_of_opened ho hm hstarter hnl
  have hnewlines := keeps_newlines hopen hnl
  have hinner := h _ hstarts hnewlines.distinct_reads
  refine ⟨hn, keeps_append.2 ⟨hnewlines, keeps_append.2 ⟨hinner, hinner.distinct_reads, ?_⟩⟩⟩
  exact hinner.distinct_reads.read_close hc hm'

end Nesting

namespace Grammar

open ChainCompiler.Parser Nesting

/-- Where an expression may stand, it can be broken off anywhere. -/
def SafeValue (ts : List Token) : Prop := ∀ n : Nesting, n.AtValue → n.Roomy → n.Distinct → n.Keeps ts

section Members

variable {α : Type} {M : Phrases α} {R : α → α → Prop} {F : List α → Bracket → Prop}
  (hmember : ∀ before ts x (n : Nesting), M ts x → (∀ y ∈ before, R y x) → n.Starts (F before) → n.Distinct →
    n.Keeps ts)
  (htracks : ∀ before ts x n, M ts x → Nesting.Starts (F before) n → (n.reads ts).Innermost (F (x :: before)))
include hmember htracks

theorem keeps_of_members {ts : List Token} {xs : List α} (hxs : Members M ts xs) :
    ∀ (before : List α) (n : Nesting), xs.Pairwise R → (∀ y ∈ before, ∀ x ∈ xs, R y x) → n.Starts (F before) →
      n.Distinct → n.Keeps ts := by
  induction hxs with
  | nil => exact fun _ _ _ _ _ hn => hn
  | last hx hnl =>
    intro before n _ hbefore hstarts hn
    have hkeeps := hmember before _ _ n hx (fun y hy => hbefore y hy _ (by simp)) hstarts hn
    exact keeps_append.2 ⟨hkeeps, keeps_newlines hkeeps.distinct_reads hnl⟩
  | @cons ts nl comma nl' us x xs hx hnl hcomma hnl' _ ih =>
    intro before n hpair hbefore hstarts hn
    have hkeeps := hmember before ts x n hx (fun y hy => hbefore y hy x (by simp)) hstarts hn
    have hinner := htracks before ts x n hx hstarts
    have hmark := brackets_read_mark (n := n.reads ts) hcomma (fun _ => rfl) rfl
    have hnext : ((n.reads ts).read comma).Distinct := hkeeps.distinct_reads.of_brackets_eq hmark
    have hnewlines := keeps_newlines hnext hnl'
    obtain ⟨hfresh, hpair⟩ := List.pairwise_cons.1 hpair
    have hrest : ((n.reads ts).reads (comma :: nl')).Keeps us := by
      refine ih (x :: before) _ hpair ?_ (hinner.starts_after_comma hcomma hnl') hnewlines.distinct_reads
      intro y hy z hz
      rcases List.mem_cons.1 hy with rfl | hy
      · exact hfresh z hz
      · exact hbefore y hy z (by simp [hz])
    refine keeps_append.2 ⟨hkeeps, keeps_append.2 ⟨keeps_newlines hkeeps.distinct_reads hnl, ?_⟩⟩
    rw [reads_newlines hnl]
    exact ⟨hkeeps.distinct_reads, keeps_append.2 ⟨hnewlines, hrest⟩⟩

end Members

/-- A member with a key that is a new one. -/
theorem keeps_keyed {P : Bracket → Prop} {n : Nesting} {t sep : Token} {us : List Token} (hn : n.Distinct)
    (hstarts : n.Starts P) (ht : t.kind ≠ .newline) (hmark : ∀ m, t.kind ≠ .mark m)
    (hfresh : ∀ b, P b → b.names.Nodup → (b.note t).names.Nodup)
    (hsep : sep.kind = .mark .colon ∨ sep.kind = .mark .assign) (h : SafeValue us) : n.Keeps (t :: sep :: us) := by
  obtain ⟨hstart, b, bs, hb, hP⟩ := hstarts
  have hnames : ∀ c ∈ b :: bs, c.names.Nodup := fun c hc => hn c (hb ▸ hc)
  have hkey : (n.read t).Distinct :=
    distinct_of_cons (brackets_read_start ht hmark hstart hb) (hfresh b hP (hnames b (by simp)))
      fun c hc => hnames c (by simp [hc])
  have hinner : ¬((n.read t).read sep).AtStart := not_atStart_read (separator_inner hsep).1 (separator_inner hsep).2
  have hafter : ((n.read t).read sep).Distinct :=
    hkey.of_brackets_eq ((level_of_separator hsep).2 _ (.inl (not_atStart_read ht (not_starter hmark))))
  exact ⟨hn, hkey, h _ (atValue_of_separator hsep) (roomy_of_not_atStart hinner) hafter⟩

section Values

variable {E : Phrases Expr} (h : ∀ ts e, E ts e → Level ts ∧ SafeValue ts)
include h

theorem keeps_of_namedArgument (before : List Argument) (ts : List Token) (a : Argument) (n : Nesting)
    (ha : NamedArgument E ts a) (hbefore : ∀ b ∈ before, b.name ≠ a.name) (hstarts : n.Starts (NamesOf before))
    (hn : n.Distinct) : n.Keeps ts := by
  obtain ⟨hname, hassign, he⟩ := ha
  refine keeps_keyed hn hstarts hname.ne_newline hname.ne_mark ?_ (.inr hassign) (h _ _ he).2
  rintro _ rfl hnodup
  rw [note_arguments hname, List.nodup_append]
  refine ⟨hnodup, by simp, ?_⟩
  rintro name hmem _ hlast rfl
  obtain rfl := List.mem_singleton.1 hlast
  obtain ⟨b, hb, heq⟩ := List.mem_filterMap.1 hmem
  exact hbefore b (List.mem_reverse.1 hb) heq

theorem keeps_of_entry (before : List (String × Expr)) (ts : List Token) (a : String × Expr) (n : Nesting)
    (ha : ObjectEntry E ts a) (hbefore : ∀ b ∈ before, b.1 ≠ a.1) (hstarts : n.Starts (KeysOf before))
    (hn : n.Distinct) : n.Keeps ts := by
  obtain ⟨hkey, hsep, he⟩ := ha
  refine keeps_keyed hn hstarts hkey.ne_newline hkey.ne_mark ?_ hsep (h _ _ he).2
  rintro _ rfl hnodup
  rw [note_object (keyText?_of_key hkey), List.nodup_append]
  refine ⟨hnodup, by simp, ?_⟩
  rintro name hmem _ hlast rfl
  obtain rfl := List.mem_singleton.1 hlast
  obtain ⟨b, hb, heq⟩ := List.mem_map.1 hmem
  exact hbefore b (List.mem_reverse.1 hb) heq

/-- Arguments can be broken off anywhere. -/
theorem keeps_of_arguments {ts : List Token} {args : List Argument}
    (hargs : Bracketed .lparen .rparen (Arguments E) ts args) (n : Nesting) (hn : n.Distinct) : n.Keeps ts := by
  obtain ⟨ho, hnl, hargs, hc⟩ := hargs
  refine keeps_bracketed hn ho rfl (by decide) hnl hc rfl fun k hstarts hk => ?_
  cases hargs with
  | named hargs hnames =>
    refine keeps_of_members (keeps_of_namedArgument h) (namesOf_namedArgument fun _ _ he => (h _ _ he).1) hargs [] k ?_
      (by simp) hstarts hk
    exact List.pairwise_map.1 hnames
  | sole he hnl =>
    have hvalue := (h _ _ he).2 k hstarts.1.atValue hstarts.roomy hk
    exact keeps_append.2 ⟨hvalue, keeps_newlines hvalue.distinct_reads hnl⟩
  | @soleComma ts nl comma nl' e he hnl hcomma hnl' =>
    have hvalue := (h _ _ he).2 k hstarts.1.atValue hstarts.roomy hk
    have hmark := brackets_read_mark (n := k.reads ts) hcomma (fun _ => rfl) rfl
    have hnext : ((k.reads ts).read comma).Distinct := hvalue.distinct_reads.of_brackets_eq hmark
    refine keeps_append.2 ⟨hvalue, keeps_append.2 ⟨keeps_newlines hvalue.distinct_reads hnl, ?_⟩⟩
    rw [reads_newlines hnl]
    exact ⟨hvalue.distinct_reads, keeps_newlines hnext hnl'⟩

theorem safe_of_layer {ts : List Token} {e : Expr} (he : Layer E ts e) : SafeValue ts := by
  intro n hvalue hroom hn
  cases he with
  | @atom t e ht => exact ⟨hn, hn.read_token hroom ht.ne_newline ht.ne_mark⟩
  | call ht hargs =>
    have hname := ht.isName
    exact ⟨hn, keeps_of_arguments h hargs _ (hn.read_token hroom hname.ne_newline hname.ne_mark)⟩
  | list hitems =>
    obtain ⟨ho, hnl, hitems, hc⟩ := hitems
    refine keeps_bracketed hn ho rfl (by decide) hnl hc rfl fun k hstarts hk => ?_
    refine keeps_of_members (R := fun _ _ => True) (F := fun _ b => b = ⟨.plain, []⟩) ?_ ?_ hitems [] k ?_
      (by simp) hstarts hk
    · exact fun _ _ _ k he _ hstarts hk => (h _ _ he).2 k hstarts.1.atValue hstarts.roomy hk
    · rintro _ _ _ k he ⟨-, b, bs, hb, rfl⟩
      exact ⟨_, bs, ((h _ _ he).1.2 k (.inr (by simp [Nesting.Plain, hb]))).trans hb, rfl⟩
    · exact List.pairwise_of_forall fun _ _ => trivial
  | object hentries =>
    obtain ⟨ho, hnl, ⟨hentries, hkeys⟩, hc⟩ := hentries
    have hopen : n.opened? .lbrace = some .object := by
      rw [Nesting.opened?, if_neg (not_or.2 hvalue)]
    refine keeps_bracketed hn ho hopen (by decide) hnl hc rfl fun k hstarts hk => ?_
    refine keeps_of_members (keeps_of_entry h) (keysOf_entry fun _ _ he => (h _ _ he).1) hentries [] k ?_
      (by simp) hstarts hk
    exact List.pairwise_map.1 hkeys

end Values

theorem safe_of_value {ts : List Token} {e : Expr} (h : Value ts e) : SafeValue ts := by
  have hfold : Level ts ∧ SafeValue ts := by
    refine Value.fold (E := fun ts _ => Level ts ∧ SafeValue ts) (fun ts e he => ?_) h
    exact ⟨level_of_layer (fun _ _ hts => hts.1) he, safe_of_layer (fun _ _ hts => hts) he⟩
  exact hfold.2

/-- Where `A` holds and no list with names is the innermost, the tokens can be broken off anywhere, and they leave all
brackets as they are. -/
def Safe (A : Nesting → Prop) (ts : List Token) : Prop :=
  ∀ n : Nesting, A n → n.Plain → n.Distinct → n.Keeps ts ∧ (n.reads ts).brackets = n.brackets

namespace Safe

variable {A B : Nesting → Prop} {ts us : List Token} {t : Token}

theorem append (h : Safe A ts) (h' : Safe B us) (hAB : ∀ n, A n → B (n.reads ts)) : Safe A (ts ++ us) := by
  intro n hA hplain hn
  obtain ⟨hkeeps, hsame⟩ := h n hA hplain hn
  have hplain' : (n.reads ts).Plain := by rwa [Nesting.Plain, hsame]
  obtain ⟨hkeeps', hsame'⟩ := h' _ (hAB n hA) hplain' hkeeps.distinct_reads
  refine ⟨keeps_append.2 ⟨hkeeps, hkeeps'⟩, ?_⟩
  rw [reads_append, hsame', hsame]

theorem anywhere (h : Safe Anywhere ts) : Safe A ts := fun n _ => h n trivial

/-- What is safe anywhere may follow anything. -/
theorem followed (h : Safe A ts) (h' : Safe Anywhere us) : Safe A (ts ++ us) := h.append h' fun _ _ => trivial

theorem nil : Safe Anywhere [] := fun _ _ _ hn => ⟨hn, rfl⟩

theorem newlines {nl : List Token} (h : Newlines nl) : Safe Anywhere nl :=
  fun n _ _ hn => ⟨keeps_newlines hn h, by rw [reads_newlines h]⟩

theorem single (h : Level [t]) : Safe Anywhere [t] := by
  intro n _ hplain hn
  have hsame := h.2 n (.inr hplain)
  exact ⟨⟨hn, hn.of_brackets_eq hsame⟩, hsame⟩

theorem keyword {k : Keyword} (h : t.kind = .keyword k) : Safe Anywhere [t] :=
  single (.token (by simp [h]) (by simp [h]))

theorem identifier (h : t.kind = .identifier) : Safe Anywhere [t] := single (.token (by simp [h]) (by simp [h]))

theorem mark {m : Mark} (h : t.kind = .mark m) (hopen : ∀ n : Nesting, n.opened? m = none)
    (hclose : isClosing m = false) : Safe Anywhere [t] :=
  single (.mark h hopen hclose)

theorem value {e : Expr} (h : Value ts e) : Safe AtValue ts :=
  fun n hvalue hplain hn => ⟨safe_of_value h n hvalue (hplain.roomy hn) hn, (level_of_value h).2 n (.inr hplain)⟩

/-- A mark after which a value comes. -/
theorem before_value {m : Mark} (h : t.kind = .mark m) (hopen : ∀ n : Nesting, n.opened? m = none)
    (hclose : isClosing m = false) (hus : Safe AtValue us) : Safe Anywhere (t :: us) := by
  refine (mark h hopen hclose).append hus fun _ _ => atValue_read h ?_
  rintro rfl
  cases hclose

theorem args {args : List Argument} (h : Args ts args) : Safe Anywhere ts := by
  have hlevel : Level ts :=
    level_of_bracketed (fun _ _ => loose_of_arguments fun _ _ => level_of_value) (fun _ => ⟨_, rfl⟩) rfl h
  have hvalues : ∀ ts e, Value ts e → Level ts ∧ SafeValue ts := fun _ _ he => ⟨level_of_value he, safe_of_value he⟩
  exact fun n _ hplain hn => ⟨keeps_of_arguments hvalues h n hn, hlevel.2 n (.inr hplain)⟩

/-- A block in braces after a call or a name. -/
theorem braces {o c : Token} (hA : ∀ n, A n → n.opened? .lbrace = some .plain) (ho : o.kind = .mark .lbrace)
    (h : Safe AtValue ts) (hc : c.kind = .mark .rbrace) : Safe A (o :: (ts ++ [c])) := by
  intro n hn hplain hdistinct
  have hopen := brackets_read_open ho (hA n hn)
  have hinside := hdistinct.read_open ho (hA n hn)
  have hvalue : (n.read o).AtValue := atValue_read ho (by decide)
  obtain ⟨hkeeps, hsame⟩ := h (n.read o) hvalue (by simp [Nesting.Plain, hopen]) hinside
  refine ⟨⟨hdistinct, keeps_append.2 ⟨hkeeps, hkeeps.distinct_reads, hkeeps.distinct_reads.read_close hc rfl⟩⟩, ?_⟩
  rw [reads_cons, reads_append, reads_cons, reads_nil, brackets_read_close hc rfl, hsame, hopen]
  rfl

end Safe

def AfterCall (n : Nesting) : Prop := n.last = some (.mark .rparen)

theorem AfterCall.opened {n : Nesting} (h : AfterCall n) : n.opened? .lbrace = some .plain := by
  rw [opened?, if_pos (.inl h)]

theorem opened_after_name {n : Nesting} {t : Token} (ht : t.kind = .identifier) :
    (n.read t).opened? .lbrace = some .plain := by
  rw [opened?, last_read (by simp [ht]), ht]
  rfl

theorem afterCall_of_args {ts : List Token} {args : List Argument} (h : Args ts args) (n : Nesting) :
    AfterCall (n.reads ts) := by
  obtain ⟨ho, hnl, hargs, hc⟩ := h
  rw [reads_cons, reads_append, reads_append, reads_cons, reads_nil, AfterCall, last_read (by simp [hc]), hc]

theorem afterCall_of_value {ts : List Token} {m : Call} (h : Value ts (.call m)) (n : Nesting) :
    AfterCall (n.reads ts) := by
  obtain ⟨h⟩ := h
  cases h with
  | atom h => cases h
  | call _ hargs => exact afterCall_of_args hargs _

section Blocks

variable {B : Phrases RouterBlock} (h : ∀ ts b, B ts b → Safe AfterCall ts)
include h

theorem safe_of_step {ts : List Token} {e : Expr} (he : Step B ts e) : Safe AtValue ts := by
  induction he with
  | value he => exact .value he
  | router he hb => exact (Safe.value he).append (h _ _ hb) fun n _ => afterCall_of_value he n
  | bind _ hbind hname hargs ih =>
    have hcall := (Safe.identifier hname).followed (.args hargs)
    exact ih.followed ((Safe.mark hbind (fun _ => rfl) rfl).followed hcall)

theorem safe_of_moreSteps {bracketed : Bool} {ts : List Token} {es : List Expr} (hes : MoreSteps B bracketed ts es) :
    Safe Anywhere ts := by
  induction hes with
  | nil => exact .nil
  | cons hnl hpipe hnl' he _ ih =>
    have hsteps := (safe_of_step h he).followed ih
    have hline := (Safe.newlines hnl'.1).anywhere.append hsteps fun n hn => by rwa [reads_newlines hnl'.1]
    exact (Safe.newlines hnl.1).followed (.before_value hpipe (fun _ => rfl) rfl hline)

theorem safe_of_pipeline {bracketed : Bool} {ts : List Token} {es : List Expr} (hes : Pipeline B bracketed ts es) :
    Safe AtValue ts := by
  obtain ⟨he, hes⟩ := hes
  exact (safe_of_step h he).followed (safe_of_moreSteps h hes)

omit h in
theorem safe_of_armEnd {ts : List Token} (hts : ArmEnd ts) : Safe Anywhere ts := by
  cases hts with
  | plain hnl => exact .newlines hnl
  | comma ht hnl => exact (Safe.mark ht (fun _ => rfl) rfl).followed (.newlines hnl)

/-- An arrow and what comes after it. -/
theorem safe_of_action {arrow : Token} {us vs ws : List Token} {action : List Expr} (harrow : arrow.kind = .mark .arrow)
    (haction : Pipeline B true us action) (hvs : ArmEnd vs) (hws : Safe Anywhere ws) :
    Safe Anywhere (arrow :: (us ++ (vs ++ ws))) := by
  have hpipeline := (safe_of_pipeline h haction).followed ((safe_of_armEnd hvs).followed hws)
  exact .before_value harrow (fun _ => rfl) rfl hpipeline

theorem safe_of_arms {ts : List Token} {b : RouterBlock} (hb : Arms B ts b) : Safe Anywhere ts := by
  induction hb with
  | nil => exact .nil
  | case ht he harrow haction hvs _ ih =>
    have hcase := (Safe.value he).followed (safe_of_action h harrow haction hvs ih)
    exact (Safe.keyword ht).append hcase fun n _ => atValue_after_keyword ht n
  | fallback ht harrow haction hvs _ ih => exact (Safe.keyword ht).followed (safe_of_action h harrow haction hvs ih)

end Blocks

theorem safe_of_block {ts : List Token} {b : RouterBlock} (h : Block ts b) : Safe AfterCall ts := by
  refine Block.fold (B := fun ts _ => Safe AfterCall ts) (fun ts b hb => ?_) h
  obtain ⟨ho, hnl, hb, hc⟩ := hb
  have harms := (Safe.newlines hnl).followed (safe_of_arms (fun _ _ hts => hts) hb)
  rw [← List.append_assoc]
  exact .braces (fun _ hn => hn.opened) ho harms.anywhere hc

theorem safe_of_fieldEnd {ts : List Token} (h : FieldEnd ts) : Safe Anywhere ts := by
  cases h with
  | nil => exact .nil
  | @cons t nl ht hnl =>
    have hfirst : Safe Anywhere [t] := by
      rcases ht with ht | ht
      · exact .mark ht (fun _ => rfl) rfl
      · exact .newlines (by simpa [Newlines] using ht)
    exact hfirst.followed (.newlines hnl)

theorem safe_of_fields {ts : List Token} {fs : List (String × String)} (h : Fields ts fs) : Safe Anywhere ts := by
  induction h with
  | nil => exact .nil
  | cons hname hcolon htype hus _ ih =>
    have htyped := (Safe.identifier htype).followed ((safe_of_fieldEnd hus).followed ih)
    exact (Safe.identifier hname).followed ((Safe.mark hcolon (fun _ => rfl) rfl).followed htyped)

theorem safe_of_contextBody {ts : List Token} {x : List Expr × Option Call} (h : ContextBody ts x) :
    Safe Anywhere ts := by
  obtain ⟨hmemory, hargs, ho, hnl, hsteps, hnl', hc⟩ := h
  have hpipeline := (safe_of_pipeline (fun _ _ => safe_of_block) hsteps).followed (.newlines hnl')
  have hinner := (Safe.newlines hnl).anywhere.append hpipeline fun n hn => by rwa [reads_newlines hnl]
  have hbody := (Safe.args hargs).append (Safe.braces (fun _ hn => AfterCall.opened hn) ho hinner hc)
    fun n _ => afterCall_of_args hargs n
  have hcontext := (Safe.keyword hmemory).followed hbody
  simpa using hcontext

theorem safe_of_sentence {ts : List Token} {s : Statement} (h : Sentence ts s) : Safe Anywhere ts := by
  cases h with
  | definition ht hname hassign he =>
    have hvalue := Safe.before_value hassign (fun _ => rfl) rfl (safe_of_step (fun _ _ => safe_of_block) he)
    exact (Safe.keyword ht).followed ((Safe.identifier hname).followed hvalue)
  | chain ht hname hassign hsteps =>
    have hvalue := Safe.before_value hassign (fun _ => rfl) rfl (safe_of_pipeline (fun _ _ => safe_of_block) hsteps)
    exact (Safe.keyword ht).followed ((Safe.identifier hname).followed hvalue)
  | chainWith ht hname hassign hw hbody =>
    have hwith := (Safe.keyword hw).followed (safe_of_contextBody hbody)
    have hvalue := (Safe.mark hassign (fun _ => rfl) rfl).followed hwith
    exact (Safe.keyword ht).followed ((Safe.identifier hname).followed hvalue)
  | @schema t name ts fields ht hname hfields =>
    obtain ⟨ho, hnl, hfields, hc⟩ := hfields
    have hinner := (Safe.newlines hnl).followed (safe_of_fields hfields)
    have hblock := (Safe.identifier hname).append (Safe.braces (fun _ hn => hn) ho hinner.anywhere hc)
      fun _ _ => opened_after_name hname
    have hschema := (Safe.keyword ht).followed hblock
    simpa using hschema

theorem safe_of_sentences {ts : List Token} {p : Program} (h : Sentences ts p) : Safe Anywhere ts := by
  induction h with
  | nil => exact .nil
  | @newline t ts p ht _ ih =>
    have hnl : Newlines [t] := by simpa [Newlines] using ht
    exact (Safe.newlines hnl).followed ih
  | cons hs _ ih => exact (safe_of_sentence hs).followed ih

/-- After no beginning of a program a list with a name twice is open. -/
theorem distinct_of_sentences {ts us : List Token} {p : Program} (h : Sentences (ts ++ us) p) :
    (Nesting.empty.reads ts).Distinct := by
  obtain ⟨hkeeps, -⟩ := safe_of_sentences h .empty trivial (by simp [Nesting.Plain, Nesting.empty]) (by decide)
  exact (keeps_append.1 hkeeps).1.distinct_reads

end Grammar

end ChainCompiler
