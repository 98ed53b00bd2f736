import ChainCompiler.Proofs.Respacing

/-! Where a comma may start a line. The innermost open bracket and the token in front of that bracket tell whether a
newline may come before a comma, so one pass over the tokens finds the commas that have one and must not. A program has
none of them: what each rule of the grammar derives closes the brackets that it opens, and all its commas are admitted. -/

namespace ChainCompiler

open Grammar (Newlines newlines_nil)

/-- What the tokens before a place tell of it: the kind of the last one and, for each bracket that is open, the innermost
one first, whether a newline may come before the commas in it. -/
structure Spot where
  last : Kind
  loose : List Bool
  deriving DecidableEq, Repr

namespace Spot

/-- A brace right after a name or a parenthesis opens a schema or a block, any other one opens an object. -/
def opensObject (s : Spot) : Bool := s.last != .identifier && s.last != .mark .rparen

def next (s : Spot) (k : Kind) : Spot where
  last := k
  loose := match k with
    | .mark .lparen => true :: s.loose
    | .mark .lbracket => true :: s.loose
    | .mark .lbrace => s.opensObject :: s.loose
    | .mark .rparen => s.loose.tail
    | .mark .rbracket => s.loose.tail
    | .mark .rbrace => s.loose.tail
    | _ => s.loose

def after (s : Spot) (ts : List Token) : Spot := ts.foldl (fun s t => s.next t.kind) s

def isLoose (s : Spot) : Bool := s.loose.headD false

/-- A comma right after a newline is admitted in some brackets only. -/
def admits (s : Spot) (k : Kind) : Bool := k != .mark .comma || s.last != .newline || s.isLoose

def admitsAll (s : Spot) : List Token → Bool
  | [] => true
  | t :: ts => s.admits t.kind && (s.next t.kind).admitsAll ts

def start : Spot := ⟨.newline, []⟩

@[simp] theorem after_nil (s : Spot) : s.after [] = s := rfl

@[simp] theorem after_cons (s : Spot) (t : Token) (ts : List Token) : s.after (t :: ts) = (s.next t.kind).after ts := rfl

theorem after_append (s : Spot) (ts us : List Token) : s.after (ts ++ us) = (s.after ts).after us := by
  simp [after, List.foldl_append]

theorem admitsAll_append (s : Spot) (ts us : List Token) :
    s.admitsAll (ts ++ us) = (s.admitsAll ts && (s.after ts).admitsAll us) := by
  induction ts generalizing s with
  | nil => rfl
  | cons t ts ih => simp [admitsAll, ih, Bool.and_assoc]

theorem admitsAll_left {s : Spot} {ts us : List Token} (h : s.admitsAll (ts ++ us) = true) : s.admitsAll ts = true := by
  rw [admitsAll_append, Bool.and_eq_true] at h
  exact h.1

theorem admitsAll_right {s : Spot} {ts us : List Token} (h : s.admitsAll (ts ++ us) = true) :
    (s.after ts).admitsAll us = true := by
  rw [admitsAll_append, Bool.and_eq_true] at h
  exact h.2

theorem admitsAll_tail {s : Spot} {t : Token} {ts : List Token} (h : s.admitsAll (t :: ts) = true) :
    (s.next t.kind).admitsAll ts = true :=
  (Bool.and_eq_true_iff.1 h).2

theorem loose_next_lbrace (s : Spot) : (s.next (.mark .lbrace)).loose = s.opensObject :: s.loose := rfl

/-- Neither a bracket nor a comma changes anything but the last token. -/
theorem next_of_isPlain (s : Spot) {k : Kind} (hk : k.isPlain = true) : s.next k = ⟨k, s.loose⟩ := by
  unfold next
  congr 1
  split <;> first | rfl | cases hk

theorem admits_of_ne (s : Spot) {k : Kind} (hk : k ≠ .mark .comma) : s.admits k = true := by
  simp [admits, hk]

/-- All tokens are admitted, and every bracket that they open they close. -/
structure Settles (s : Spot) (ts : List Token) : Prop where
  admitted : s.admitsAll ts = true
  loose : (s.after ts).loose = s.loose

/-- The last token is, moreover, no newline. -/
structure Closes (s : Spot) (ts : List Token) : Prop extends Settles s ts where
  last : (s.after ts).last ≠ .newline

variable {s : Spot} {t : Token} {ts us nl : List Token}

theorem Settles.isLoose (h : s.Settles ts) : (s.after ts).isLoose = s.isLoose := by
  rw [Spot.isLoose, h.loose, Spot.isLoose]

theorem Settles.nil : s.Settles [] := ⟨rfl, rfl⟩

theorem Settles.append (h : s.Settles ts) (h' : (s.after ts).Settles us) : s.Settles (ts ++ us) where
  admitted := by rw [admitsAll_append, h.admitted, h'.admitted, Bool.and_self]
  loose := by rw [after_append, h'.loose, h.loose]

theorem Closes.append (h : s.Settles ts) (h' : (s.after ts).Closes us) : s.Closes (ts ++ us) where
  toSettles := h.append h'.toSettles
  last := by rw [after_append]; exact h'.last

theorem Settles.single (hadmits : s.admits t.kind = true) (hloose : (s.next t.kind).loose = s.loose) :
    s.Settles [t] :=
  ⟨by simp [admitsAll, hadmits], hloose⟩

theorem Settles.cons (h : s.Settles [t]) (h' : (s.next t.kind).Settles ts) : s.Settles (t :: ts) := h.append h'

theorem Closes.cons (h : s.Settles [t]) (h' : (s.next t.kind).Closes ts) : s.Closes (t :: ts) := Closes.append h h'

theorem Settles.plain (s : Spot) (ht : t.kind.isPlain = true) : s.Settles [t] := by
  refine .single (s.admits_of_ne ?_) (by rw [s.next_of_isPlain ht])
  intro hk
  rw [hk] at ht
  cases ht

theorem Closes.plain (s : Spot) (ht : t.kind.isPlain = true) : s.Closes [t] where
  toSettles := .plain s ht
  last := by
    rintro hk
    rw [show t.kind = .newline from hk] at ht
    cases ht

theorem Settles.newlines (s : Spot) (h : Newlines nl) : s.Settles nl := by
  induction nl generalizing s with
  | nil => exact .nil
  | cons t nl ih =>
    have ht : t.kind = .newline := h t (by simp)
    exact .cons (.single (by rw [ht]; rfl) (by rw [ht]; rfl)) (ih _ fun u hu => h u (by simp [hu]))

/-- An object may be opened after newlines where it may be opened before them. -/
theorem opensObject_after (hs : s.opensObject = true) (h : Newlines nl) : (s.after nl).opensObject = true := by
  induction nl generalizing s with
  | nil => exact hs
  | cons t nl ih =>
    have ht : t.kind = .newline := h t (by simp)
    rw [after_cons]
    exact ih (by rw [ht]; rfl) fun u hu => h u (by simp [hu])

theorem last_after_of_ne_nil (h : Newlines nl) (hne : nl ≠ []) : (s.after nl).last = .newline := by
  obtain ⟨front, t, rfl⟩ := (List.eq_nil_or_concat nl).resolve_left hne
  rw [List.concat_eq_append, after_append]
  exact h t (by simp)

end Spot

namespace Grammar

open Spot

variable {α : Type}

def Closing (L : Phrases α) : Prop := ∀ ⦃ts x⦄, L ts x → ∀ s : Spot, s.opensObject = true → s.Closes ts

def Settling (loose : Bool) (L : Phrases α) : Prop :=
  ∀ ⦃ts x⦄, L ts x → ∀ s : Spot, s.opensObject = true → s.isLoose = loose → s.Settles ts

theorem settles_comma {s : Spot} {t : Token} (ht : t.kind = .mark .comma) (h : s.last ≠ .newline ∨ s.isLoose = true) :
    s.Settles [t] := by
  refine .single ?_ (by rw [ht]; rfl)
  rcases h with h | h <;> simp [admits, h]

theorem Members.settling {M : Phrases α} (h : Closing M) : Settling true (Members M) := by
  intro ts xs hxs s hs hloose
  induction hxs generalizing s with
  | nil => exact .nil
  | last hx hnl => exact (h hx s hs).toSettles.append (.newlines _ hnl)
  | @cons ts nl comma nl' us x xs hx hnl hcomma hnl' _ ih =>
    have hmember : s.Settles (ts ++ nl) := (h hx s hs).toSettles.append (.newlines _ hnl)
    have hsep : s.Settles (ts ++ nl ++ [comma]) :=
      hmember.append (settles_comma hcomma (.inr (by rw [hmember.isLoose, hloose])))
    have hgap : s.Settles (ts ++ nl ++ [comma] ++ nl') := hsep.append (.newlines _ hnl')
    have hrest : (s.after (ts ++ nl ++ [comma] ++ nl')).Settles us := by
      refine ih _ ?_ (by rw [hgap.isLoose, hloose])
      rw [after_append, after_append]
      exact opensObject_after (by rw [after_cons, hcomma]; rfl) hnl'
    simpa using hgap.append hrest

/-- Only an opening bracket opens one. -/
theorem ne_of_next {o : Mark} {loose : Bool} {s : Spot} (h : (s.next (.mark o)).loose = loose :: s.loose) :
    o ≠ .comma ∧ o ≠ .rparen := by
  have hlength := congrArg List.length h
  constructor
  · rintro rfl
    simp [next] at hlength
  · rintro rfl
    simp [next] at hlength

theorem loose_next_of_isClosing {c : Mark} (h : isClosing c = true) (s : Spot) :
    (s.next (.mark c)).loose = s.loose.tail := by
  cases c <;> first | rfl | cases h

/-- Brackets are closed by the last token of what they enclose. -/
theorem closes_brackets {o c : Mark} {opening closing : Token} {nl ts : List Token} {loose : Bool} {s : Spot}
    (hopening : opening.kind = .mark o) (hclosing : closing.kind = .mark c) (hc : isClosing c = true)
    (hopen : (s.next (.mark o)).loose = loose :: s.loose) (hnl : Newlines nl)
    (h : ∀ s : Spot, s.opensObject = true → s.isLoose = loose → s.Settles ts) :
    s.Closes (opening :: (nl ++ (ts ++ [closing]))) ∧
      (s.after (opening :: (nl ++ (ts ++ [closing])))).last = .mark c := by
  have hne := ne_of_next hopen
  have hgap : (s.next (.mark o)).Settles nl := .newlines _ hnl
  have hinner : (s.next (.mark o)).Settles (nl ++ ts) := by
    refine hgap.append (h _ (opensObject_after ?_ hnl) ?_)
    · simp [opensObject, next, hne.2]
    · rw [hgap.isLoose, isLoose, hopen]
      rfl
  have hlast : s.after (opening :: (nl ++ (ts ++ [closing]))) =
      ((s.next (.mark o)).after (nl ++ ts)).next (.mark c) := by
    simp [after_append, hopening, hclosing]
  have hadmitted : s.admitsAll (opening :: (nl ++ (ts ++ [closing]))) = true := by
    have hfirst : s.admits (.mark o) = true := s.admits_of_ne (by simp [hne.1])
    have hfinal : ((s.next (.mark o)).after (nl ++ ts)).admits (.mark c) = true := by
      refine admits_of_ne _ ?_
      rintro ⟨⟩
      cases hc
    rw [admitsAll, hopening, hfirst, ← List.append_assoc, admitsAll_append, hinner.admitted]
    simp [admitsAll, hclosing, hfinal]
  refine ⟨⟨⟨hadmitted, ?_⟩, ?_⟩, ?_⟩
  · rw [hlast, loose_next_of_isClosing hc, hinner.loose, hopen, List.tail_cons]
  · rw [hlast]
    rintro ⟨⟩
  · rw [hlast]
    rfl

theorem Bracketed.closes {o c : Mark} {L : Phrases α} {loose : Bool} {s : Spot}
    (hopen : (s.next (.mark o)).loose = loose :: s.loose) (hc : isClosing c = true) (h : Settling loose L)
    {ts : List Token} {x : α} (hx : Bracketed o c L ts x) : s.Closes ts ∧ (s.after ts).last = .mark c := by
  obtain ⟨hopening, hnl, hx, hclosing⟩ := hx
  exact closes_brackets hopening hclosing hc hopen hnl (h hx)

section Values

variable {E : Phrases Expr} (h : Closing E)
include h

theorem NamedArgument.closing : Closing (NamedArgument E) := by
  intro ts a ha s _
  obtain ⟨hname, hassign, he⟩ := ha
  refine .cons (.plain s hname.isPlain) (.cons (.plain _ (by rw [hassign]; rfl)) (h he _ ?_))
  rw [hassign]
  rfl

theorem ObjectEntry.closing : Closing (ObjectEntry E) := by
  intro ts a ha s _
  obtain ⟨hkey, hsep, he⟩ := ha
  refine .cons (.plain s hkey.isPlain) (.cons (.plain _ ?_) (h he _ ?_))
  · rcases hsep with hsep | hsep <;> rw [hsep] <;> rfl
  · rcases hsep with hsep | hsep <;> rw [hsep] <;> rfl

theorem Arguments.settling : Settling true (Arguments E) := by
  intro ts args hargs s hs hloose
  cases hargs with
  | named hargs _ => exact Members.settling (NamedArgument.closing h) hargs s hs hloose
  | sole he hnl => exact (h he s hs).toSettles.append (.newlines _ hnl)
  | @soleComma ts nl comma nl' e he hnl hcomma hnl' =>
    have hvalue : s.Settles (ts ++ nl) := (h he s hs).toSettles.append (.newlines _ hnl)
    have hsep : s.Settles (ts ++ nl ++ [comma]) :=
      hvalue.append (settles_comma hcomma (.inr (by rw [hvalue.isLoose, hloose])))
    simpa using hsep.append (.newlines _ hnl')

theorem Entries.settling : Settling true (Entries E) := by
  intro ts entries hentries
  obtain ⟨hentries, -⟩ := hentries
  exact Members.settling (ObjectEntry.closing h) hentries

theorem Layer.closing : Closing (Layer E) := by
  intro ts e he s hs
  cases he with
  | atom ht => exact .plain s (isPlain_of_atom ht)
  | call ht hargs =>
    exact .cons (.plain s ht.isName.isPlain) (Bracketed.closes rfl rfl (Arguments.settling h) hargs).1
  | list hitems => exact (Bracketed.closes rfl rfl (Members.settling h) hitems).1
  | object hentries =>
    have hopen : (s.next (.mark .lbrace)).loose = true :: s.loose := by rw [loose_next_lbrace, hs]
    exact (Bracketed.closes hopen rfl (Entries.settling h) hentries).1

end Values

theorem Value.closing : Closing Value :=
  fun _ _ he => Value.fold (E := fun ts _ => ∀ s : Spot, s.opensObject = true → s.Closes ts)
    (fun _ _ hlayer => Layer.closing (fun _ _ he => he) hlayer) he

theorem args_closes {ts : List Token} {args : List Argument} (h : Args ts args) (s : Spot) :
    s.Closes ts ∧ (s.after ts).last = .mark .rparen :=
  Bracketed.closes rfl rfl (Arguments.settling Value.closing) h

/-- A call ends in a parenthesis. -/
theorem last_of_call {ts : List Token} {call : Call} (h : Value ts (.call call)) (s : Spot) :
    (s.after ts).last = .mark .rparen := by
  obtain ⟨h⟩ := h
  cases h with
  | atom ht => cases ht
  | call _ hargs => exact (args_closes hargs _).2

theorem ArmEnd.settles {ts : List Token} (h : ArmEnd ts) {s : Spot} (hs : s.last ≠ .newline) : s.Settles ts := by
  cases h with
  | plain hnl => exact .newlines s hnl
  | comma ht hnl => exact .cons (settles_comma ht (.inl hs)) (.newlines _ hnl)

def ClosingBlock (B : Phrases RouterBlock) : Prop :=
  ∀ ⦃ts b⦄, B ts b → ∀ s : Spot, s.last = .mark .rparen → s.Closes ts

section Blocks

variable {B : Phrases RouterBlock} (h : ClosingBlock B)
include h

theorem Step.closing : Closing (Step B) := by
  intro ts e he s hs
  induction he with
  | value he => exact Value.closing he s hs
  | router he hb => exact .append (Value.closing he s hs).toSettles (h hb _ (last_of_call he s))
  | bind _ hbind hname hargs ih =>
    exact .append ih.toSettles
      (.cons (.plain _ (by rw [hbind]; rfl)) (.cons (.plain _ (by rw [hname]; rfl)) (args_closes hargs _).1))

theorem MoreSteps.closes {bracketed : Bool} {ts : List Token} {es : List Expr} (hes : MoreSteps B bracketed ts es) :
    ∀ s : Spot, s.last ≠ .newline → s.Closes ts := by
  induction hes with
  | nil => exact fun s hs => ⟨.nil, hs⟩
  | @cons nl pipe nl' ts us e es hnl hpipe hnl' he _ ih =>
    intro s _
    have hgap : s.Settles (nl ++ [pipe] ++ nl') :=
      ((Settles.newlines s hnl.1).append (.plain _ (by rw [hpipe]; rfl))).append (.newlines _ hnl'.1)
    have hstep : (s.after (nl ++ [pipe] ++ nl')).Closes ts := by
      refine Step.closing h he _ ?_
      rw [after_append, after_append]
      exact opensObject_after (by rw [after_cons, hpipe]; rfl) hnl'.1
    have hrest := Closes.append hgap (.append hstep.toSettles (ih _ hstep.last))
    simpa using hrest

theorem Pipeline.closing {bracketed : Bool} : Closing (Pipeline B bracketed) := by
  intro ts es hes s hs
  obtain ⟨he, hes⟩ := hes
  have hstep := Step.closing h he s hs
  exact .append hstep.toSettles (MoreSteps.closes h hes _ hstep.last)

/-- An arm starts with a keyword, so it settles anywhere. -/
theorem Arms.settles {ts : List Token} {b : RouterBlock} (hb : Arms B ts b) : ∀ s : Spot, s.Settles ts := by
  induction hb with
  | nil => exact fun s => .nil
  | @case t ts arrow us vs ws condition action cases fallback ht he harrow haction hend _ ih =>
    intro s
    have hcondition : (s.next t.kind).Closes ts := Value.closing he _ (by rw [ht]; rfl)
    have harm : (((s.next t.kind).after ts).next arrow.kind).Closes us :=
      Pipeline.closing h haction _ (by rw [harrow]; rfl)
    exact .cons (.plain s (by rw [ht]; rfl)) (hcondition.toSettles.append
      (.cons (.plain _ (by rw [harrow]; rfl)) (harm.toSettles.append ((hend.settles harm.last).append (ih _)))))
  | @fallback t arrow us vs ws action cases ht harrow haction hend _ ih =>
    intro s
    have harm : ((s.next t.kind).next arrow.kind).Closes us := Pipeline.closing h haction _ (by rw [harrow]; rfl)
    exact .cons (.plain s (by rw [ht]; rfl)) (.cons (.plain _ (by rw [harrow]; rfl))
      (harm.toSettles.append ((hend.settles harm.last).append (ih _))))

theorem closes_of_arms {ts : List Token} {b : RouterBlock} (hb : Bracketed .lbrace .rbrace (Arms B) ts b) (s : Spot) :
    s.Closes ts :=
  (Bracketed.closes (L := Arms B) rfl rfl (fun _ _ hb s _ _ => Arms.settles h hb s) hb).1

end Blocks

theorem Block.closing : ClosingBlock Block :=
  fun _ _ hb => Block.fold (B := fun ts _ => ∀ s : Spot, s.last = .mark .rparen → s.Closes ts)
    (fun _ _ harms s _ => closes_of_arms (fun _ _ hb => hb) harms s) hb

theorem FieldEnd.settles {ts : List Token} (h : FieldEnd ts) {s : Spot} (hs : s.last ≠ .newline) : s.Settles ts := by
  cases h with
  | nil => exact .nil
  | cons ht hnl =>
    refine .cons ?_ (.newlines _ hnl)
    rcases ht with ht | ht
    · exact settles_comma ht (.inl hs)
    · exact .newlines s (by simpa [Newlines] using ht)

theorem Fields.settles {ts : List Token} {fs : List (String × String)} (h : Fields ts fs) : ∀ s : Spot, s.Settles ts := by
  induction h with
  | nil => exact fun s => .nil
  | cons hname hcolon htype hend _ ih =>
    intro s
    refine .cons (.plain s (by rw [hname]; rfl)) (.cons (.plain _ (by rw [hcolon]; rfl))
      (.cons (.plain _ (by rw [htype]; rfl)) ((hend.settles ?_).append (ih _))))
    rw [htype]
    rintro ⟨⟩

theorem ContextBody.settles {ts : List Token} {x : List Expr × Option Call} (h : ContextBody ts x) (s : Spot) :
    s.Settles ts := by
  cases h with
  | @mk memory ts args o nl us nl' c steps hmemory hargs ho hnl hsteps hnl' hc =>
    have hcall := args_closes hargs (s.next memory.kind)
    have hopen : (((s.next memory.kind).after ts).next (.mark .lbrace)).loose =
        false :: ((s.next memory.kind).after ts).loose := by
      rw [loose_next_lbrace, opensObject, hcall.2]
      rfl
    have hbody := (closes_brackets ho hc rfl hopen hnl fun s hs _ =>
      (Pipeline.closing Block.closing hsteps s hs).toSettles.append (.newlines _ hnl')).1
    rw [List.append_assoc us] at hbody
    exact .cons (.plain s (by rw [hmemory]; rfl)) (hcall.1.toSettles.append hbody.toSettles)

theorem Sentence.settles {ts : List Token} {st : Statement} (h : Sentence ts st) (s : Spot) : s.Settles ts := by
  cases h with
  | definition ht hname hassign hvalue =>
    refine .cons (.plain s (by rw [ht]; rfl)) (.cons (.plain _ (by rw [hname]; rfl))
      (.cons (.plain _ (by rw [hassign]; rfl)) (Step.closing Block.closing hvalue _ ?_).toSettles))
    rw [hassign]
    rfl
  | chain ht hname hassign hsteps =>
    refine .cons (.plain s (by rw [ht]; rfl)) (.cons (.plain _ (by rw [hname]; rfl))
      (.cons (.plain _ (by rw [hassign]; rfl)) (Pipeline.closing Block.closing hsteps _ ?_).toSettles))
    rw [hassign]
    rfl
  | chainWith ht hname hassign hw hbody =>
    exact .cons (.plain s (by rw [ht]; rfl)) (.cons (.plain _ (by rw [hname]; rfl))
      (.cons (.plain _ (by rw [hassign]; rfl)) (.cons (.plain _ (by rw [hw]; rfl)) (hbody.settles _))))
  | schema ht hname hfs =>
    refine .cons (.plain s (by rw [ht]; rfl)) (.cons (.plain _ (by rw [hname]; rfl)) ?_)
    have hfields : Settling false Fields := fun _ _ hfs s _ _ => hfs.settles s
    exact (Bracketed.closes (by rw [hname]; rfl) rfl hfields hfs).1.toSettles

/-- In a program, no comma after a field or an arm comes after a newline. -/
theorem Sentences.settles {ts : List Token} {p : Program} (h : Sentences ts p) : ∀ s : Spot, s.Settles ts := by
  induction h with
  | nil => exact fun s => .nil
  | newline ht _ ih => exact fun s => .cons (.newlines s (by simpa [Newlines] using ht)) (ih _)
  | cons hs _ ih => exact fun s => (hs.settles s).append (ih _)

end Grammar

end ChainCompiler
