import ChainCompiler.Proofs.Derivation
import Mathlib.Data.List.Chain

/-! In no program does one string follow another directly: every rule of the grammar puts a token that is no string
between two expressions. -/

namespace ChainCompiler.Grammar

def Apart (ts : List Token) : Prop := ts.IsChain fun t u => t.kind = .string → u.kind ≠ .string

/-- Strings are apart even when a string comes right before. -/
structure Calm (ts : List Token) : Prop where
  apart : Apart ts
  head : ∀ t ∈ ts.head?, t.kind ≠ .string

theorem Apart.single (t : Token) : Apart [t] := List.IsChain.singleton t

theorem Calm.nil : Calm [] := ⟨List.IsChain.nil, by simp⟩

theorem Apart.append {ts us : List Token} (h : Apart ts) (h' : Calm us) : Apart (ts ++ us) :=
  List.IsChain.append h h'.apart fun _ _ u hu _ => h'.head u hu

theorem Calm.cons {t : Token} {ts : List Token} {k : Kind} (ht : t.kind = k) (hk : k ≠ .string) (h : Apart ts) :
    Calm (t :: ts) :=
  ⟨List.IsChain.cons h fun _ _ hs => absurd (ht ▸ hs) hk, by simpa [ht] using hk⟩

theorem Apart.newlines {nl ts : List Token} (hnl : Newlines nl) (h : Apart ts) : Apart (nl ++ ts) := by
  induction nl with
  | nil => exact h
  | cons t nl ih => exact (Calm.cons (hnl t (by simp)) (by simp) (ih fun u hu => hnl u (by simp [hu]))).apart

theorem Calm.newlines {nl ts : List Token} (hnl : Newlines nl) (h : Calm ts) : Calm (nl ++ ts) := by
  cases nl with
  | nil => exact h
  | cons t nl => exact .cons (hnl t (by simp)) (by simp) (Apart.newlines (fun u hu => hnl u (by simp [hu])) h.apart)

theorem Newlines.calm {nl : List Token} (hnl : Newlines nl) : Calm nl := by
  simpa using Calm.newlines hnl .nil

section Values

variable {α : Type}

theorem apart_of_members {M : Phrases α} (h : ∀ ts x, M ts x → Apart ts) {ts : List Token} {xs : List α}
    (hxs : Members M ts xs) : Apart ts := by
  induction hxs with
  | nil => exact List.IsChain.nil
  | last hx hnl => exact (h _ _ hx).append hnl.calm
  | cons hx hnl hcomma hnl' _ ih =>
    exact (h _ _ hx).append (.newlines hnl (.cons hcomma (by simp) (.newlines hnl' ih)))

theorem calm_of_bracketed {o c : Mark} {L : Phrases α} (h : ∀ ts x, L ts x → Apart ts) {ts : List Token} {x : α}
    (hx : Bracketed o c L ts x) : Calm ts := by
  obtain ⟨ho, hnl, hx, hc⟩ := hx
  exact .cons ho (by simp) (.newlines hnl ((h _ _ hx).append (.cons hc (by simp) List.IsChain.nil)))

theorem apart_of_namedArgument {E : Phrases Expr} (h : ∀ ts e, E ts e → Apart ts) {ts : List Token} {a : Argument}
    (ha : NamedArgument E ts a) : Apart ts := by
  obtain ⟨hname, hassign, he⟩ := ha
  have he := (Calm.cons hassign (by simp) (h _ _ he)).apart
  rcases hname with hk | ⟨k, hk⟩
  · exact (Calm.cons hk (by simp) he).apart
  · exact (Calm.cons hk (by simp) he).apart

theorem apart_of_arguments {E : Phrases Expr} (h : ∀ ts e, E ts e → Apart ts) {ts : List Token} {args : List Argument}
    (hargs : Arguments E ts args) : Apart ts := by
  cases hargs with
  | named hargs _ => exact apart_of_members (fun _ _ => apart_of_namedArgument h) hargs
  | sole he hnl => exact (h _ _ he).append hnl.calm
  | soleComma he hnl hcomma hnl' =>
    exact (h _ _ he).append (.newlines hnl (.cons hcomma (by simp) hnl'.calm.apart))

theorem apart_of_entry {E : Phrases Expr} (h : ∀ ts e, E ts e → Apart ts) {ts : List Token} {a : String × Expr}
    (ha : ObjectEntry E ts a) : Apart ts := by
  obtain ⟨-, hsep, he⟩ := ha
  rcases hsep with hk | hk
  · exact (Apart.single _).append (.cons hk (by simp) (h _ _ he))
  · exact (Apart.single _).append (.cons hk (by simp) (h _ _ he))

theorem apart_of_layer {E : Phrases Expr} (h : ∀ ts e, E ts e → Apart ts) {ts : List Token} {e : Expr}
    (he : Layer E ts e) : Apart ts := by
  cases he with
  | atom => exact .single _
  | call ht hargs =>
    have hargs := (calm_of_bracketed (fun _ _ => apart_of_arguments h) hargs).apart
    rcases ht with hk | ⟨k, hk, -⟩
    · exact (Calm.cons hk (by simp) hargs).apart
    · exact (Calm.cons hk (by simp) hargs).apart
  | list hitems => exact (calm_of_bracketed (fun _ _ => apart_of_members h) hitems).apart
  | object hentries =>
    refine (calm_of_bracketed (fun _ _ hx => ?_) hentries).apart
    obtain ⟨hx, -⟩ := hx
    exact apart_of_members (fun _ _ => apart_of_entry h) hx

theorem apart_of_value {ts : List Token} {e : Expr} (h : Value ts e) : Apart ts :=
  Value.fold (E := fun ts _ => Apart ts) (fun _ _ => apart_of_layer fun _ _ hts => hts) h

theorem calm_of_args {ts : List Token} {args : List Argument} (h : Args ts args) : Calm ts :=
  calm_of_bracketed (fun _ _ => apart_of_arguments fun _ _ => apart_of_value) h

end Values

section Blocks

variable {B : Phrases RouterBlock} (h : ∀ ts b, B ts b → Calm ts)
include h

theorem apart_of_step {ts : List Token} {e : Expr} (he : Step B ts e) : Apart ts := by
  induction he with
  | value he => exact apart_of_value he
  | router he hb => exact (apart_of_value he).append (h _ _ hb)
  | bind _ hbind hname hargs ih =>
    exact ih.append (.cons hbind (by simp) (Calm.cons hname (by simp) (calm_of_args hargs).apart).apart)

theorem calm_of_moreSteps {bracketed : Bool} {ts : List Token} {es : List Expr} (hes : MoreSteps B bracketed ts es) :
    Calm ts := by
  induction hes with
  | nil => exact .nil
  | cons hnl hpipe hnl' he _ ih =>
    exact .newlines hnl.1 (.cons hpipe (by simp) (.newlines hnl'.1 ((apart_of_step h he).append ih)))

theorem apart_of_pipeline {bracketed : Bool} {ts : List Token} {es : List Expr} (hes : Pipeline B bracketed ts es) :
    Apart ts := by
  obtain ⟨he, hes⟩ := hes
  exact (apart_of_step h he).append (calm_of_moreSteps h hes)

omit h in
theorem ArmEnd.calm {vs ws : List Token} (hvs : ArmEnd vs) (hws : Calm ws) : Calm (vs ++ ws) := by
  cases hvs with
  | plain hnl => exact .newlines hnl hws
  | comma ht hnl => exact .cons ht (by simp) (.newlines hnl hws.apart)

theorem calm_of_arms {ts : List Token} {b : RouterBlock} (hb : Arms B ts b) : Calm ts := by
  induction hb with
  | nil => exact .nil
  | case ht he harrow haction hvs _ ih =>
    have haction := (apart_of_pipeline h haction).append (hvs.calm ih)
    exact .cons ht (by simp) ((apart_of_value he).append (.cons harrow (by simp) haction))
  | fallback ht harrow haction hvs _ ih =>
    have haction := (apart_of_pipeline h haction).append (hvs.calm ih)
    exact .cons ht (by simp) (Calm.cons harrow (by simp) haction).apart

end Blocks

theorem calm_of_block {ts : List Token} {b : RouterBlock} (h : Block ts b) : Calm ts :=
  Block.fold (B := fun ts _ => Calm ts)
    (fun _ _ => calm_of_bracketed fun _ _ hb => (calm_of_arms (fun _ _ hts => hts) hb).apart) h

theorem calm_of_fields {ts : List Token} {fs : List (String × String)} (h : Fields ts fs) : Calm ts := by
  induction h with
  | nil => exact .nil
  | @cons name colon type us vs fs hname hcolon htype hus _ ih =>
    have hend : Calm (us ++ vs) := by
      cases hus with
      | nil => exact ih
      | cons ht hnl =>
        rcases ht with hk | hk
        · exact .cons hk (by simp) (.newlines hnl ih.apart)
        · exact .cons hk (by simp) (.newlines hnl ih.apart)
    exact .cons hname (by simp) (Calm.cons hcolon (by simp) (Calm.cons htype (by simp) hend.apart).apart).apart

theorem calm_of_contextBody {ts : List Token} {x : List Expr × Option Call} (h : ContextBody ts x) : Calm ts := by
  obtain ⟨hmemory, hargs, ho, hnl, hsteps, hnl', hc⟩ := h
  have hclose : Apart _ := (apart_of_pipeline (fun _ _ => calm_of_block) hsteps).append
    (.newlines hnl' (.cons hc (by simp) List.IsChain.nil))
  exact .cons hmemory (by simp) ((calm_of_args hargs).apart.append (.cons ho (by simp) (.newlines hnl hclose)))

theorem calm_of_sentence {ts : List Token} {s : Statement} (h : Sentence ts s) : Calm ts := by
  -- all four start with a keyword and a name
  have hhead : ∀ {t name : Token} {k : Keyword} {us : List Token}, t.kind = .keyword k → name.kind = .identifier →
      Apart us → Calm (t :: name :: us) := by
    intro t name k us ht hname hus
    exact .cons ht (by simp) (Calm.cons hname (by simp) hus).apart
  cases h with
  | definition ht hname hassign he =>
    exact hhead ht hname (Calm.cons hassign (by simp) (apart_of_step (fun _ _ => calm_of_block) he)).apart
  | chain ht hname hassign hsteps =>
    exact hhead ht hname (Calm.cons hassign (by simp) (apart_of_pipeline (fun _ _ => calm_of_block) hsteps)).apart
  | chainWith ht hname hassign hw hbody =>
    have hwith := (Calm.cons hw (by simp) (calm_of_contextBody hbody).apart).apart
    exact hhead ht hname (Calm.cons hassign (by simp) hwith).apart
  | schema ht hname hfields =>
    exact hhead ht hname (calm_of_bracketed (fun _ _ hfs => (calm_of_fields hfs).apart) hfields).apart

theorem calm_of_sentences {ts : List Token} {p : Program} (h : Sentences ts p) : Calm ts := by
  induction h with
  | nil => exact .nil
  | newline ht _ ih => exact .cons ht (by simp) ih.apart
  | cons hs _ ih =>
    have hs := calm_of_sentence hs
    refine ⟨hs.apart.append ih, fun t ht => ?_⟩
    rw [List.head?_append, Option.mem_def, Option.or_eq_some_iff] at ht
    rcases ht with ht | ⟨-, ht⟩
    · exact hs.head t ht
    · exact ih.head t ht

end ChainCompiler.Grammar
