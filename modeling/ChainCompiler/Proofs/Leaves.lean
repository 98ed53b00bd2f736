import ChainCompiler.Proofs.Derivation

/-! The leaves of an expression: what it holds, at any depth, that has no parts of its own. The leaves of what a token
sequence derives are single tokens of it. -/

namespace ChainCompiler

mutual

def Expr.leaves : Expr → List Expr
  | .bind target m => target.leaves ++ m.leaves
  | .call c => c.leaves
  | .identifier name => [.identifier name]
  | .string text => [.string text]
  | .number value => [.number value]
  | .boolean value => [.boolean value]
  | .templateVar name => [.templateVar name]
  | .list items => itemLeaves items
  | .object entries => entryLeaves entries

def itemLeaves : List Expr → List Expr
  | [] => []
  | e :: es => e.leaves ++ itemLeaves es

def entryLeaves : List (String × Expr) → List Expr
  | [] => []
  | (_, e) :: es => e.leaves ++ entryLeaves es

def argumentLeaves : List Argument → List Expr
  | [] => []
  | ⟨_, e⟩ :: args => e.leaves ++ argumentLeaves args

def caseLeaves : List (Expr × List Expr) → List Expr
  | [] => []
  | (condition, action) :: cases => condition.leaves ++ itemLeaves action ++ caseLeaves cases

def RouterBlock.leaves : RouterBlock → List Expr
  | ⟨cases, none⟩ => caseLeaves cases
  | ⟨cases, some action⟩ => caseLeaves cases ++ itemLeaves action

def Call.leaves : Call → List Expr
  | ⟨_, args, none⟩ => argumentLeaves args
  | ⟨_, args, some b⟩ => argumentLeaves args ++ b.leaves

end

def Statement.leaves (s : Statement) : List Expr :=
  match s.declaration with
  | .definition value => value.leaves
  | .chain pipeline none => itemLeaves pipeline
  | .chain pipeline (some context) => itemLeaves pipeline ++ context.leaves
  | .schema _ => []

theorem itemLeaves_eq_flatMap (es : List Expr) : itemLeaves es = es.flatMap Expr.leaves := by
  induction es with
  | nil => rfl
  | cons e es ih => rw [itemLeaves, ih, List.flatMap_cons]

theorem entryLeaves_eq_flatMap (entries : List (String × Expr)) :
    entryLeaves entries = entries.flatMap fun x => x.2.leaves := by
  induction entries with
  | nil => rfl
  | cons x entries ih => rw [entryLeaves, ih, List.flatMap_cons]

theorem argumentLeaves_eq_flatMap (args : List Argument) :
    argumentLeaves args = args.flatMap fun a => a.value.leaves := by
  induction args with
  | nil => rfl
  | cons a args ih =>
    obtain ⟨name, e⟩ := a
    rw [argumentLeaves, ih, List.flatMap_cons]

theorem caseLeaves_eq_flatMap (cases : List (Expr × List Expr)) :
    caseLeaves cases = cases.flatMap fun x => x.1.leaves ++ itemLeaves x.2 := by
  induction cases with
  | nil => rfl
  | cons x cases ih => rw [caseLeaves, ih, List.flatMap_cons]

theorem RouterBlock.leaves_eq (cases : List (Expr × List Expr)) (fallback : Option (List Expr)) :
    (RouterBlock.mk cases fallback).leaves = caseLeaves cases ++ fallback.elim [] itemLeaves := by
  rcases fallback with _ | action
  · exact (List.append_nil _).symm
  · rfl

namespace Grammar

/-- Each of the leaves is a token of the sequence. -/
def Covers (ts : List Token) (leaves : List Expr) : Prop := ∀ l ∈ leaves, ∃ t ∈ ts, Atom t l

theorem Covers.mono {ts us : List Token} {ls : List Expr} (h : Covers ts ls) (hsub : ∀ t ∈ ts, t ∈ us) :
    Covers us ls := by
  intro l hl
  obtain ⟨t, ht, hatom⟩ := h l hl
  exact ⟨t, hsub t ht, hatom⟩

theorem covers_append {ts : List Token} {ls ms : List Expr} : Covers ts (ls ++ ms) ↔ Covers ts ls ∧ Covers ts ms :=
  List.forall_mem_append

theorem covers_atom {t : Token} {e : Expr} (h : Atom t e) : Covers [t] e.leaves := by
  have hleaves : e.leaves = [e] := by cases h <;> rfl
  rw [hleaves]
  intro l hl
  cases List.mem_singleton.1 hl
  exact ⟨t, List.mem_singleton_self t, h⟩

theorem covers_of_members {α : Type} {M : Phrases α} {f : α → List Expr} (h : ∀ ts x, M ts x → Covers ts (f x))
    {ts : List Token} {xs : List α} (hxs : Members M ts xs) : Covers ts (xs.flatMap f) := by
  induction hxs with
  | nil => simp [Covers]
  | last hx _ =>
    rw [List.flatMap_singleton]
    exact (h _ _ hx).mono (by simp +contextual)
  | cons hx _ _ _ _ ih =>
    rw [List.flatMap_cons, covers_append]
    exact ⟨(h _ _ hx).mono (by simp +contextual), ih.mono (by simp +contextual)⟩

theorem covers_of_bracketed {α : Type} {o c : Mark} {L : Phrases α} {f : α → List Expr}
    (h : ∀ ts x, L ts x → Covers ts (f x)) {ts : List Token} {x : α} (hx : Bracketed o c L ts x) : Covers ts (f x) := by
  obtain ⟨-, -, hx, -⟩ := hx
  exact (h _ _ hx).mono (by simp +contextual)

section Values

variable {E : Phrases Expr} (h : ∀ ts e, E ts e → Covers ts e.leaves)
include h

theorem covers_of_arguments (ts : List Token) (args : List Argument) (hargs : Arguments E ts args) :
    Covers ts (argumentLeaves args) := by
  rw [argumentLeaves_eq_flatMap]
  cases hargs with
  | named hargs _ =>
    refine covers_of_members (fun us a ha => ?_) hargs
    obtain ⟨-, -, he⟩ := ha
    exact (h _ _ he).mono (by simp +contextual)
  | sole he _ =>
    rw [List.flatMap_singleton]
    exact (h _ _ he).mono (by simp +contextual)
  | soleComma he _ _ _ =>
    rw [List.flatMap_singleton]
    exact (h _ _ he).mono (by simp +contextual)

theorem covers_of_layer (ts : List Token) (e : Expr) (he : Layer E ts e) : Covers ts e.leaves := by
  cases he with
  | atom ha => exact covers_atom ha
  | call _ hargs => exact (covers_of_bracketed (covers_of_arguments h) hargs).mono (by simp +contextual)
  | list hitems =>
    rw [Expr.leaves, itemLeaves_eq_flatMap]
    exact covers_of_bracketed (f := List.flatMap Expr.leaves) (fun _ _ => covers_of_members h) hitems
  | object hentries =>
    rw [Expr.leaves, entryLeaves_eq_flatMap]
    refine covers_of_bracketed (f := List.flatMap fun x => x.2.leaves) (fun us entries hus => ?_) hentries
    obtain ⟨hus, -⟩ := hus
    refine covers_of_members (fun vs x hx => ?_) hus
    obtain ⟨-, -, he⟩ := hx
    exact (h _ _ he).mono (by simp +contextual)

end Values

theorem covers_of_value (ts : List Token) (e : Expr) (h : Value ts e) : Covers ts e.leaves :=
  Value.fold (E := fun ts e => Covers ts e.leaves) (covers_of_layer fun _ _ he => he) h

theorem covers_of_args (ts : List Token) (args : List Argument) (h : Args ts args) : Covers ts (argumentLeaves args) :=
  covers_of_bracketed (covers_of_arguments covers_of_value) h

section Blocks

variable {B : Phrases RouterBlock} (h : ∀ ts b, B ts b → Covers ts b.leaves)
include h

theorem covers_of_step (ts : List Token) (e : Expr) (he : Step B ts e) : Covers ts e.leaves := by
  induction he with
  | value he => exact covers_of_value _ _ he
  | router he hb =>
    rw [Expr.leaves, Call.leaves, covers_append]
    exact ⟨(covers_of_value _ _ he).mono (by simp +contextual), (h _ _ hb).mono (by simp +contextual)⟩
  | bind _ _ _ hargs ih =>
    rw [Expr.leaves, Call.leaves, covers_append]
    exact ⟨ih.mono (by simp +contextual), (covers_of_args _ _ hargs).mono (by simp +contextual)⟩

theorem covers_of_pipeline {bracketed : Bool} (ts : List Token) (es : List Expr) (hes : Pipeline B bracketed ts es) :
    Covers ts (itemLeaves es) := by
  have hmore : ∀ {us fs}, MoreSteps B bracketed us fs → Covers us (itemLeaves fs) := by
    intro us fs hfs
    induction hfs with
    | nil => simp [Covers, itemLeaves]
    | cons _ _ _ he _ ih =>
      rw [itemLeaves, covers_append]
      exact ⟨(covers_of_step h _ _ he).mono (by simp +contextual), ih.mono (by simp +contextual)⟩
  obtain ⟨he, hes⟩ := hes
  rw [itemLeaves, covers_append]
  exact ⟨(covers_of_step h _ _ he).mono (by simp +contextual), (hmore hes).mono (by simp +contextual)⟩

theorem covers_of_arms (ts : List Token) (b : RouterBlock) (hb : Arms B ts b) : Covers ts b.leaves := by
  induction hb with
  | nil => simp [Covers, RouterBlock.leaves, caseLeaves]
  | case _ hcondition _ haction _ _ ih =>
    simp only [RouterBlock.leaves_eq, caseLeaves, covers_append] at ih ⊢
    have hvalue := covers_of_value _ _ hcondition
    have hsteps := covers_of_pipeline h _ _ haction
    exact ⟨⟨⟨hvalue.mono (by simp +contextual), hsteps.mono (by simp +contextual)⟩, ih.1.mono (by simp +contextual)⟩,
      ih.2.mono (by simp +contextual)⟩
  | fallback _ _ haction _ _ ih =>
    simp only [RouterBlock.leaves_eq, covers_append] at ih ⊢
    exact ⟨ih.1.mono (by simp +contextual), (covers_of_pipeline h _ _ haction).mono (by simp +contextual)⟩

end Blocks

theorem covers_of_block (ts : List Token) (b : RouterBlock) (h : Block ts b) : Covers ts b.leaves :=
  Block.fold (B := fun ts b => Covers ts b.leaves)
    (fun _ _ => covers_of_bracketed (covers_of_arms fun _ _ hb => hb)) h

theorem covers_of_sentence {ts : List Token} {s : Statement} (h : Sentence ts s) : Covers ts s.leaves := by
  cases h with
  | definition _ _ _ hvalue => exact (covers_of_step covers_of_block _ _ hvalue).mono (by simp +contextual)
  | chain _ _ _ hsteps => exact (covers_of_pipeline covers_of_block _ _ hsteps).mono (by simp +contextual)
  | chainWith _ _ _ _ hbody =>
    cases hbody with
    | mk _ hargs _ _ hsteps _ _ =>
      exact covers_append.2 ⟨(covers_of_pipeline covers_of_block _ _ hsteps).mono (by simp +contextual),
        (covers_of_args _ _ hargs).mono (by simp +contextual)⟩
  | schema _ _ _ => simp [Covers, Statement.leaves]

theorem covers_of_sentences {ts : List Token} {p : Program} (h : Sentences ts p) : ∀ s ∈ p, Covers ts s.leaves := by
  induction h with
  | nil => simp
  | newline _ _ ih => exact fun s hs => (ih s hs).mono (by simp +contextual)
  | cons hs _ ih =>
    refine List.forall_mem_cons.2 ⟨(covers_of_sentence hs).mono (by simp +contextual), fun s' hs' => ?_⟩
    exact (ih s' hs').mono (by simp +contextual)

end Grammar

end ChainCompiler
