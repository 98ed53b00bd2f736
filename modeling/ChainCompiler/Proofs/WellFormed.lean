import ChainCompiler.Proofs.Derivation
import ChainCompiler.Proofs.Lexical
import ChainCompiler.Proofs.Recognition

/-! Programs from sources are well formed at every depth. What may stand where is said by place: values hold neither
modifiers nor router blocks, steps may have both, and what is nested in either is again well formed for its place. -/

namespace ChainCompiler

namespace WellFormed

/-- A name that stands for a value: an identifier that is not reserved, or a component. -/
def IsReference (name : String) : Prop :=
  (IsFreeName name ∧ name ≠ "true" ∧ name ≠ "false") ∨ ∃ k : Keyword, k.isComponent = true ∧ name = k.spelling

/-- No arguments, a single one without a name, or arguments with distinct names. -/
def Shape (args : List Argument) : Prop :=
  args = [] ∨ (∃ e, args = [⟨none, e⟩]) ∨ (∀ a ∈ args, a.name ≠ none) ∧ (args.map Argument.name).Nodup

inductive Value : Expr → Prop
  | identifier {name} : IsReference name → Value (.identifier name)
  | string {text} : Value (.string text)
  | number {v} : Value (.number v)
  | boolean {b} : Value (.boolean b)
  | templateVar {name} : Text.isIdentifier name.toList = true → Value (.templateVar name)
  | list {items} : (∀ e ∈ items, Value e) → Value (.list items)
  | object {entries} : (entries.map Prod.fst).Nodup → (∀ x ∈ entries, Value x.2) → Value (.object entries)
  | call {name args} : Shape args → (∀ a ∈ args, Value a.value) → Value (.call ⟨name, args, none⟩)

def Args (args : List Argument) : Prop := Shape args ∧ ∀ a ∈ args, Value a.value

mutual

/-- A value of a definition, or a step of a pipeline. -/
inductive Step : Expr → Prop
  | value {e} : Value e → Step e
  | router {args b} : Args args → Block b → Step (.call ⟨Keyword.router.spelling, args, some b⟩)
  | bind {e name args} : Step e → IsFreeName name → Args args → Step (.bind e ⟨name, args, none⟩)

inductive Pipeline : List Expr → Prop
  | mk {steps} : steps ≠ [] → (∀ e ∈ steps, Step e) → Pipeline steps

inductive Block : RouterBlock → Prop
  | mk {cases fallback} :
      (∀ x ∈ cases, Value x.1) → (∀ x ∈ cases, Pipeline x.2) → (∀ action ∈ fallback, Pipeline action) →
      Block ⟨cases, fallback⟩

end

/-- What holds of values, of routers whose branches it holds of, and of targets that it holds of with a modifier, holds
of all steps. -/
theorem Step.fold {P : Expr → Prop} (value : ∀ {e}, Value e → P e)
    (router : ∀ {args b}, Args args → Block b → (∀ x ∈ b.cases, ∀ e ∈ x.2, P e) →
      (∀ action ∈ b.fallback, ∀ e ∈ action, P e) → P (.call ⟨Keyword.router.spelling, args, some b⟩))
    (bind : ∀ {e name args}, Step e → P e → IsFreeName name → Args args → P (.bind e ⟨name, args, none⟩))
    {e : Expr} (h : Step e) : P e :=
  @Step.rec (fun e _ => P e) (fun steps _ => ∀ e ∈ steps, P e)
    (fun b _ => (∀ x ∈ b.cases, ∀ e ∈ x.2, P e) ∧ ∀ action ∈ b.fallback, ∀ e ∈ action, P e)
    (fun he => value he) (fun hargs hb ih => router hargs hb ih.1 ih.2)
    (fun he hname hargs ih => bind he ih hname hargs) (fun _ _ ih => ih) (fun _ _ _ ihcases ihfallback =>
      ⟨ihcases, ihfallback⟩) e h

def Context (m : Call) : Prop := m.name = Keyword.memoryKw.spelling ∧ m.router = none ∧ Args m.args

def Declaration : ChainCompiler.Declaration → Prop
  | .definition value => Step value
  | .chain steps context => Pipeline steps ∧ ∀ m ∈ context, Context m
  | .schema fields => ∀ f ∈ fields, IsFreeName f.1 ∧ IsFreeName f.2

def Statement (s : ChainCompiler.Statement) : Prop := IsFreeName s.name ∧ Declaration s.declaration

end WellFormed

namespace Grammar

/-- All tokens are ones that a scan can give. -/
def Scannable (ts : List Token) : Prop := ∀ t ∈ ts, t.Lexical

@[simp] theorem scannable_cons {t : Token} {ts : List Token} : Scannable (t :: ts) ↔ t.Lexical ∧ Scannable ts :=
  List.forall_mem_cons

@[simp] theorem scannable_append {ts us : List Token} : Scannable (ts ++ us) ↔ Scannable ts ∧ Scannable us :=
  List.forall_mem_append

theorem forall_of_members {α : Type} {M : Phrases α} {Q : α → Prop} (h : ∀ ts x, M ts x → Scannable ts → Q x)
    {ts : List Token} {xs : List α} (hxs : Members M ts xs) (hts : Scannable ts) : ∀ x ∈ xs, Q x := by
  induction hxs with
  | nil => simp
  | last hx _ =>
    simp only [scannable_append] at hts
    simpa using h _ _ hx hts.1
  | cons hx _ _ _ _ ih =>
    simp only [scannable_append, scannable_cons] at hts
    exact List.forall_mem_cons.2 ⟨h _ _ hx hts.1, ih hts.2.2.2.2⟩

theorem scannable_of_bracketed {α : Type} {o c : Mark} {L : Phrases α} {ts : List Token} {x : α}
    (h : Bracketed o c L ts x) (hts : Scannable ts) : ∃ us, L us x ∧ Scannable us := by
  obtain ⟨-, -, hx, -⟩ := h
  simp only [scannable_append, scannable_cons] at hts
  exact ⟨_, hx, hts.2.2.1⟩

section Values

variable {E : Phrases Expr} (h : ∀ ts e, E ts e → Scannable ts → WellFormed.Value e)
include h

theorem args_of_arguments {ts : List Token} {args : List Argument} (hargs : Arguments E ts args) (hts : Scannable ts) :
    WellFormed.Args args := by
  cases hargs with
  | named hargs hnames =>
    have hall : ∀ a ∈ args, a.name ≠ none ∧ WellFormed.Value a.value := by
      refine forall_of_members (fun us a ha hus => ?_) hargs hts
      obtain ⟨-, -, he⟩ := ha
      simp only [scannable_cons] at hus
      exact ⟨by simp, h _ _ he hus.2.2⟩
    exact ⟨.inr (.inr ⟨fun a ha => (hall a ha).1, hnames⟩), fun a ha => (hall a ha).2⟩
  | sole he _ =>
    simp only [scannable_append] at hts
    exact ⟨.inr (.inl ⟨_, rfl⟩), by simpa using h _ _ he hts.1⟩
  | soleComma he _ _ _ =>
    simp only [scannable_append] at hts
    exact ⟨.inr (.inl ⟨_, rfl⟩), by simpa using h _ _ he hts.1⟩

omit h in
theorem value_of_atom {t : Token} {e : Expr} (ha : Atom t e) (ht : t.Lexical) : WellFormed.Value e := by
  cases ha with
  | true => exact .boolean
  | false => exact .boolean
  | identifier hk htrue hfalse => exact .identifier (.inl ⟨ht.isFreeName hk, htrue, hfalse⟩)
  | component hk hcomponent => exact .identifier (.inr ⟨_, hcomponent, ht.spelling hk⟩)
  | string => exact .string
  | number => exact .number
  | templateVar hk => exact .templateVar (by simpa only [Token.Lexical, hk] using ht)

theorem value_of_layer {ts : List Token} {e : Expr} (he : Layer E ts e) (hts : Scannable ts) : WellFormed.Value e := by
  cases he with
  | atom ha => exact value_of_atom ha (hts _ (by simp))
  | call _ hargs =>
    obtain ⟨us, hargs, hus⟩ := scannable_of_bracketed hargs (scannable_cons.1 hts).2
    obtain ⟨hshape, hvalues⟩ := args_of_arguments h hargs hus
    exact .call hshape hvalues
  | list hitems =>
    obtain ⟨us, hitems, hus⟩ := scannable_of_bracketed hitems hts
    exact .list (forall_of_members h hitems hus)
  | object hentries =>
    obtain ⟨us, ⟨hentries, hkeys⟩, hus⟩ := scannable_of_bracketed hentries hts
    refine .object hkeys (forall_of_members (fun vs x hx hvs => ?_) hentries hus)
    obtain ⟨-, -, he⟩ := hx
    simp only [scannable_cons] at hvs
    exact h _ _ he hvs.2.2

end Values

theorem wellFormed_of_value {ts : List Token} {e : Expr} (h : Value ts e) (hts : Scannable ts) : WellFormed.Value e :=
  Value.fold (E := fun ts e => Scannable ts → WellFormed.Value e) (fun _ _ => value_of_layer fun _ _ he => he) h hts

theorem wellFormed_of_args {ts : List Token} {args : List Argument} (h : Args ts args) (hts : Scannable ts) :
    WellFormed.Args args := by
  obtain ⟨us, hargs, hus⟩ := scannable_of_bracketed h hts
  exact args_of_arguments (fun _ _ => wellFormed_of_value) hargs hus

section Blocks

variable {B : Phrases RouterBlock} (h : ∀ ts b, B ts b → Scannable ts → WellFormed.Block b)
include h

theorem wellFormed_of_step {ts : List Token} {e : Expr} (he : Step B ts e) (hts : Scannable ts) :
    WellFormed.Step e := by
  induction he with
  | value he => exact .value (wellFormed_of_value he hts)
  | router he hb =>
    simp only [scannable_append] at hts
    have hcall := wellFormed_of_value he hts.1
    cases hcall with
    | call hshape hvalues => exact .router ⟨hshape, hvalues⟩ (h _ _ hb hts.2)
  | bind _ _ hname hargs ih =>
    simp only [scannable_append, scannable_cons] at hts
    obtain ⟨hts, -, ht, hus⟩ := hts
    exact .bind (ih hts) (ht.isFreeName hname) (wellFormed_of_args hargs hus)

theorem forall_of_moreSteps {bracketed : Bool} {ts : List Token} {es : List Expr} (hes : MoreSteps B bracketed ts es)
    (hts : Scannable ts) : ∀ e ∈ es, WellFormed.Step e := by
  induction hes with
  | nil => simp
  | cons _ _ _ he _ ih =>
    simp only [scannable_append, scannable_cons] at hts
    obtain ⟨-, -, -, hts, hus⟩ := hts
    exact List.forall_mem_cons.2 ⟨wellFormed_of_step h he hts, ih hus⟩

theorem wellFormed_of_pipeline {bracketed : Bool} {ts : List Token} {es : List Expr} (hes : Pipeline B bracketed ts es)
    (hts : Scannable ts) : WellFormed.Pipeline es := by
  obtain ⟨he, hes⟩ := hes
  simp only [scannable_append] at hts
  exact .mk (by simp) (List.forall_mem_cons.2 ⟨wellFormed_of_step h he hts.1, forall_of_moreSteps h hes hts.2⟩)

theorem wellFormed_of_arms {ts : List Token} {b : RouterBlock} (hb : Arms B ts b) (hts : Scannable ts) :
    WellFormed.Block b := by
  induction hb with
  | nil => exact .mk (by simp) (by simp) (by simp)
  | case _ hcondition _ haction _ _ ih =>
    simp only [scannable_append, scannable_cons] at hts
    obtain ⟨-, hts, -, hus, -, hws⟩ := hts
    obtain ⟨hconditions, hactions, hfallback⟩ := ih hws
    exact .mk (List.forall_mem_cons.2 ⟨wellFormed_of_value hcondition hts, hconditions⟩)
      (List.forall_mem_cons.2 ⟨wellFormed_of_pipeline h haction hus, hactions⟩) hfallback
  | fallback _ _ haction _ _ ih =>
    simp only [scannable_append, scannable_cons] at hts
    obtain ⟨-, -, hus, -, hws⟩ := hts
    obtain ⟨hconditions, hactions, -⟩ := ih hws
    exact .mk hconditions hactions (by simpa using wellFormed_of_pipeline h haction hus)

end Blocks

theorem wellFormed_of_block {ts : List Token} {b : RouterBlock} (h : Block ts b) (hts : Scannable ts) :
    WellFormed.Block b := by
  refine Block.fold (B := fun ts b => Scannable ts → WellFormed.Block b) (fun us b hb hus => ?_) h hts
  obtain ⟨vs, hb, hvs⟩ := scannable_of_bracketed hb hus
  exact wellFormed_of_arms (fun _ _ hB => hB) hb hvs

theorem wellFormed_of_contextBody {ts : List Token} {steps : List Expr} {context : Option Call}
    (h : ContextBody ts (steps, context)) (hts : Scannable ts) :
    WellFormed.Pipeline steps ∧ ∀ m ∈ context, WellFormed.Context m := by
  cases h with
  | mk _ hargs _ _ hsteps _ _ =>
    simp only [scannable_append, scannable_cons] at hts
    obtain ⟨-, hts, -, -, hus, -⟩ := hts
    refine ⟨wellFormed_of_pipeline (fun _ _ => wellFormed_of_block) hsteps hus, fun m hm => ?_⟩
    cases hm
    exact ⟨rfl, rfl, wellFormed_of_args hargs hts⟩

theorem forall_of_fields {ts : List Token} {fs : List (String × String)} (h : Fields ts fs) (hts : Scannable ts) :
    ∀ f ∈ fs, IsFreeName f.1 ∧ IsFreeName f.2 := by
  induction h with
  | nil => simp
  | cons hname _ htype _ _ ih =>
    simp only [scannable_append, scannable_cons] at hts
    obtain ⟨hn, -, ht, -, hvs⟩ := hts
    exact List.forall_mem_cons.2 ⟨⟨hn.isFreeName hname, ht.isFreeName htype⟩, ih hvs⟩

theorem wellFormed_of_sentence {ts : List Token} {s : Statement} (h : Sentence ts s) (hts : Scannable ts) :
    WellFormed.Statement s := by
  cases h with
  | definition _ hname _ hvalue =>
    simp only [scannable_cons] at hts
    obtain ⟨-, hn, -, hts⟩ := hts
    exact ⟨hn.isFreeName hname, wellFormed_of_step (fun _ _ => wellFormed_of_block) hvalue hts⟩
  | chain _ hname _ hsteps =>
    simp only [scannable_cons] at hts
    obtain ⟨-, hn, -, hts⟩ := hts
    exact ⟨hn.isFreeName hname,
      wellFormed_of_pipeline (fun _ _ => wellFormed_of_block) hsteps hts, by simp⟩
  | chainWith _ hname _ _ hbody =>
    simp only [scannable_cons] at hts
    obtain ⟨-, hn, -, -, hts⟩ := hts
    exact ⟨hn.isFreeName hname, wellFormed_of_contextBody hbody hts⟩
  | schema _ hname hfields =>
    simp only [scannable_cons] at hts
    obtain ⟨-, hn, hts⟩ := hts
    obtain ⟨us, hfields, hus⟩ := scannable_of_bracketed hfields hts
    exact ⟨hn.isFreeName hname, forall_of_fields hfields hus⟩

theorem wellFormed_of_sentences {ts : List Token} {p : Program} (h : Sentences ts p) (hts : Scannable ts) :
    ∀ s ∈ p, WellFormed.Statement s := by
  induction h with
  | nil => simp
  | newline _ _ ih => exact ih (scannable_cons.1 hts).2
  | cons hs _ ih =>
    simp only [scannable_append] at hts
    exact List.forall_mem_cons.2 ⟨wellFormed_of_sentence hs hts.1, ih hts.2⟩

end Grammar

namespace Program

/-- A program from a source is derived from tokens as the scanner makes them. -/
theorem sentences_of_ofSource {source : String} {p : Program} (h : ofSource source = .ok p) :
    ∃ ts, Grammar.Sentences ts p ∧ Grammar.Scannable ts := by
  obtain ⟨ts, hts, hp⟩ := ofSource_eq_ok h
  have hscanned := Token.scanned_of_tokenize hts
  obtain ⟨init, eof, rfl, he, hinit⟩ := Token.endsOnce_of_scanned hscanned
  exact ⟨init, sentences_of_ofTokens hinit he hp, fun t ht => Token.lexical_of_scanned hscanned t (by simp [ht])⟩

/-- Every statement of a program from a source is well formed. -/
theorem wellFormed_of_ofSource {source : String} {p : Program} (h : ofSource source = .ok p) :
    ∀ s ∈ p, WellFormed.Statement s := by
  obtain ⟨ts, hsentences, hts⟩ := sentences_of_ofSource h
  exact Grammar.wellFormed_of_sentences hsentences hts

def routerSource : String :=
  "chain c = Router(on = x) \x7b\n case [\"a\"] => Model() @ retry(\x7b\x7bv\x7d\x7d)\n default => y \x7d"

def routerProgram : Program :=
  let action : Expr := .bind (.call ⟨"Model", [], none⟩) ⟨"retry", [⟨none, .templateVar "v"⟩], none⟩
  let block : RouterBlock := ⟨[(.list [.string "a"], [action])], some [.identifier "y"]⟩
  [⟨"c", 1, .chain [.call ⟨"Router", [⟨some "on", .identifier "x"⟩], some block⟩] none⟩]

def routerSourceTokens : List Token :=
  [⟨.keyword .chainKw, "chain", ⟨1, 1⟩⟩, ⟨.identifier, "c", ⟨1, 7⟩⟩, ⟨.mark .assign, "=", ⟨1, 9⟩⟩,
    ⟨.keyword .router, "Router", ⟨1, 11⟩⟩, ⟨.mark .lparen, "(", ⟨1, 17⟩⟩, ⟨.identifier, "on", ⟨1, 18⟩⟩,
    ⟨.mark .assign, "=", ⟨1, 21⟩⟩, ⟨.identifier, "x", ⟨1, 23⟩⟩, ⟨.mark .rparen, ")", ⟨1, 24⟩⟩,
    ⟨.mark .lbrace, "\x7b", ⟨1, 26⟩⟩, ⟨.newline, "\n", ⟨1, 27⟩⟩, ⟨.keyword .caseKw, "case", ⟨2, 2⟩⟩,
    ⟨.mark .lbracket, "[", ⟨2, 7⟩⟩, ⟨.string, "\"a\"", ⟨2, 8⟩⟩, ⟨.mark .rbracket, "]", ⟨2, 11⟩⟩,
    ⟨.mark .arrow, "=>", ⟨2, 13⟩⟩, ⟨.keyword .model, "Model", ⟨2, 16⟩⟩, ⟨.mark .lparen, "(", ⟨2, 21⟩⟩,
    ⟨.mark .rparen, ")", ⟨2, 22⟩⟩, ⟨.mark .bind, "@", ⟨2, 24⟩⟩, ⟨.identifier, "retry", ⟨2, 26⟩⟩,
    ⟨.mark .lparen, "(", ⟨2, 31⟩⟩, ⟨.templateVar, "\x7b\x7bv\x7d\x7d", ⟨2, 32⟩⟩, ⟨.mark .rparen, ")", ⟨2, 37⟩⟩,
    ⟨.newline, "\n", ⟨2, 38⟩⟩, ⟨.keyword .defaultKw, "default", ⟨3, 2⟩⟩, ⟨.mark .arrow, "=>", ⟨3, 10⟩⟩,
    ⟨.identifier, "y", ⟨3, 13⟩⟩, ⟨.mark .rbrace, "\x7d", ⟨3, 15⟩⟩, ⟨.eof, "", ⟨3, 16⟩⟩]

theorem wellFormed_routerProgram :
    ofSource routerSource = .ok routerProgram ∧ ∀ s ∈ routerProgram, WellFormed.Statement s := by
  have htokens : Token.tokenize routerSource = .ok routerSourceTokens := rfl
  have h : ofSource routerSource = .ok routerProgram := (ofSource_of_tokenize htokens).trans rfl
  exact ⟨h, wellFormed_of_ofSource h⟩

end Program

end ChainCompiler
