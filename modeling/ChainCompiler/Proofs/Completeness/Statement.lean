import ChainCompiler.Parser.Statement
import ChainCompiler.Proofs.Completeness.Pipeline

/-! Whatever the grammar derives as a statement is accepted by the parser of statements, when a newline, another
statement or the end of input follows. -/

namespace ChainCompiler

namespace Cursor

def StatementEnd (c : Cursor) : Prop :=
  c.current.kind = .newline ∨ c.current.kind = .eof ∨ c.current.kind = .keyword .defKw ∨
    c.current.kind = .keyword .chainKw ∨ c.current.kind = .keyword .schemaKw

theorem StatementEnd.pipelineEnd {c : Cursor} (h : c.StatementEnd) : c.PipelineEnd false := by
  refine ⟨⟨?_, ?_, ?_⟩, ?_, by simp⟩ <;> rcases h with h | h | h | h | h <;> simp [NoCall, h]

def pastNewline (c : Cursor) : Cursor := if c.current.kind = .newline then c.advance else c

end Cursor

namespace Parser

open Grammar Cursor

variable {α : Type}

theorem endStatement_bind (f : Unit → Parser α) (c : Cursor) : (endStatement >>= f) c = f () c.pastNewline := by
  apply bind_of_ok f
  rw [endStatement, isAt_bind]
  by_cases hc : c.current.kind = .newline
  · rw [if_pos (by simpa using hc), pastNewline, if_pos hc]
    rfl
  · rw [if_neg (by simpa using hc), pastNewline, if_neg hc]
    rfl

theorem heading_back (c : Cursor) {k : Keyword} (want : Want) (f : Nat × String → Parser α) {t name : Token}
    (ts : List Token) (ht : t.kind = .keyword k) (hname : name.kind = .identifier) :
    (heading k want >>= f) (c.back (t :: name :: ts)) = f (t.pos.line, name.text) (c.back ts) := by
  apply bind_of_ok f
  rw [heading, expect_back _ _ _ _ ht (by simp), expectIdentifier_back _ _ _ _ hname]
  rfl

theorem contextBody_accepts {n : Nat} {ts : List Token} {x : List Expr × Option Call} {c : Cursor}
    (h : ContextBody ts x) (hn : ts.length ≤ n) : contextBody n (c.back ts) = .ok (x, c) := by
  cases h with
  | @mk memory ts args o nl us nl' t steps hmemory hargs ho hnl hsteps hnl' ht =>
  simp only [List.length_cons, List.length_append] at hn
  have hend : ((c.back [t]).back nl').PipelineEnd true := pipelineEnd_of_armEnd (.plain hnl') (.inr (.inr ht))
  have hline : (c.back (us ++ (nl' ++ [t]))).current.kind ≠ .newline := by
    rw [back_append]
    exact (opens_of_pipeline hsteps).current_ne _ rfl
  rw [contextBody, expect_back _ _ _ _ hmemory (by simp), back_append,
    bind_of_ok _ (call_expr_accepts n _ _ hargs (by omega)), expect_back _ _ _ _ ho (by simp), back_append,
    skipNewlines_back_bind _ hnl hline, back_append, back_append,
    bind_of_ok _ (pipeline_block_accepts hsteps (by omega) hend),
    skipNewlines_back_bind _ hnl' (by simp [ht]), expect_back _ _ _ _ ht (by simp)]
  rfl

theorem noWith_of_pipeline {bracketed : Bool} {B : Phrases RouterBlock} {ts : List Token} {es : List Expr} {c : Cursor}
    (h : Pipeline B bracketed ts es) : (c.back ts).current.kind ≠ .keyword .withKw := by
  obtain ⟨he, -⟩ := h
  obtain ⟨t, us, hts, ht⟩ := (opensComponent_of_step he).append _
  rw [hts]
  intro hk
  cases ht .withKw hk

theorem definition_accepts {n : Nat} {t name assign : Token} {ts : List Token} {value : Expr} {c : Cursor}
    (ht : t.kind = .keyword .defKw) (hname : name.kind = .identifier) (hassign : assign.kind = .mark .assign)
    (hvalue : Step Block ts value) (hn : ts.length ≤ n) (hc : c.StatementEnd) :
    definition n (c.back (t :: name :: assign :: ts)) =
      .ok (⟨name.text, t.pos.line, .definition value⟩, c.pastNewline) := by
  rw [definition, heading_back _ _ _ _ ht hname]
  dsimp only
  rw [expect_back _ _ _ _ hassign (by simp),
    bind_of_ok _ (step_block_accepts hvalue (by omega) hc.pipelineEnd.toStepEnd), endStatement_bind]
  rfl

theorem chain_accepts {n : Nat} {t name assign : Token} {ts : List Token} {steps : List Expr} {c : Cursor}
    (ht : t.kind = .keyword .chainKw) (hname : name.kind = .identifier) (hassign : assign.kind = .mark .assign)
    (hsteps : Pipeline Block false ts steps) (hn : ts.length ≤ n) (hc : c.StatementEnd) :
    chain n (c.back (t :: name :: assign :: ts)) = .ok (⟨name.text, t.pos.line, .chain steps none⟩, c.pastNewline) := by
  have hwith : (c.back ts).current.kind ≠ .keyword .withKw := noWith_of_pipeline hsteps
  rw [chain, heading_back _ _ _ _ ht hname]
  dsimp only
  rw [expect_back _ _ _ _ hassign (by simp), isAt_bind, if_neg (by simpa using hwith),
    bind_of_ok _ (pipeline_block_accepts hsteps (by omega) hc.pipelineEnd), bind_of_ok _ (pure_apply (steps, none) c)]
  exact endStatement_bind _ c

theorem chainWith_accepts {n : Nat} {t name assign w : Token} {ts : List Token} {steps : List Expr}
    {context : Option Call} {c : Cursor} (ht : t.kind = .keyword .chainKw) (hname : name.kind = .identifier)
    (hassign : assign.kind = .mark .assign) (hw : w.kind = .keyword .withKw)
    (hbody : ContextBody ts (steps, context)) (hn : ts.length ≤ n) :
    chain n (c.back (t :: name :: assign :: w :: ts)) =
      .ok (⟨name.text, t.pos.line, .chain steps context⟩, c.pastNewline) := by
  rw [chain, heading_back _ _ _ _ ht hname]
  dsimp only
  rw [expect_back _ _ _ _ hassign (by simp), isAt_bind, if_pos (by simp [hw]),
    next_back _ _ _ (by simp [hw]), bind_of_ok _ (contextBody_accepts hbody hn)]
  exact endStatement_bind _ c

theorem fields_current {ts : List Token} {fs : List (String × String)} {c : Cursor} (h : Fields ts fs)
    (hc : c.current.kind = .mark .rbrace) :
    (c.back ts).current.kind = .identifier ∨ (c.back ts).current.kind = .mark .rbrace := by
  cases h with
  | nil => exact .inr hc
  | cons hname _ _ _ _ => exact .inl hname

theorem fieldEnd_back {ts : List Token} {c : Cursor} (f : Unit → Parser α) (h : FieldEnd ts)
    (hc : c.current.kind = .identifier ∨ c.current.kind = .mark .rbrace) : (fieldEnd >>= f) (c.back ts) = f () c := by
  apply bind_of_ok f
  have hline : c.current.kind ≠ .newline := by rcases hc with hc | hc <;> simp [hc]
  cases h with
  | nil =>
    rw [back_nil, fieldEnd, kind_bind]
    rcases hc with hc | hc <;> rw [hc] <;> rfl
  | @cons t nl ht hnl =>
    have hskip : (next >>= fun _ => skipNewlines) (c.back (t :: nl)) = .ok ((), c) := by
      rw [next_back _ _ _ (by rcases ht with ht | ht <;> simp [ht])]
      change Except.ok ((), (c.back nl).skipNewlines) = _
      rw [skipNewlines_back hnl hline]
    rw [fieldEnd, kind_bind]
    rcases ht with ht | ht <;> rw [current_back_cons, ht] <;> exact hskip

theorem fields_accepts {ts : List Token} {fs : List (String × String)} (h : Fields ts fs) :
    ∀ {m : Nat} {c : Cursor}, ts.length < m → c.current.kind = .mark .rbrace → fields m (c.back ts) = .ok (fs, c) := by
  induction h with
  | nil =>
    intro m c hm hc
    obtain ⟨m, rfl⟩ : ∃ k, m = k + 1 := ⟨m - 1, by simp at hm; omega⟩
    rw [fields, isAt_bind, if_pos (by simp [hc])]
    rfl
  | @cons name colon type us vs fs hname hcolon htype hend hfs ih =>
    intro m c hm hc
    simp only [List.length_cons, List.length_append] at hm
    obtain ⟨m, rfl⟩ : ∃ k, m = k + 1 := ⟨m - 1, by omega⟩
    rw [fields, isAt_bind, if_neg (by simp [hname]), expectIdentifier_back _ _ _ _ hname,
      expect_back _ _ _ _ hcolon (by simp), expectIdentifier_back _ _ _ _ htype, back_append,
      fieldEnd_back _ hend (fields_current hfs hc), bind_of_ok _ (ih (by omega) hc)]
    rfl

theorem schema_accepts {n : Nat} {t name : Token} {ts : List Token} {fs : List (String × String)} {c : Cursor}
    (ht : t.kind = .keyword .schemaKw) (hname : name.kind = .identifier) (hfs : Bracketed .lbrace .rbrace Fields ts fs)
    (hn : ts.length ≤ n) :
    schema n (c.back (t :: name :: ts)) = .ok (⟨name.text, t.pos.line, .schema fs⟩, c.pastNewline) := by
  cases hfs with
  | @mk o nl us t' _ ho hnl hfs ht' =>
  simp only [List.length_cons, List.length_append] at hn
  have hline : ((c.back [t']).back us).current.kind ≠ .newline := by
    rcases fields_current hfs (c := c.back [t']) ht' with h | h <;> simp [h]
  rw [schema, heading_back _ _ _ _ ht hname]
  dsimp only
  rw [expect_back _ _ _ _ ho (by simp), back_append, back_append,
    skipNewlines_back_bind _ hnl hline, bind_of_ok _ (fields_accepts hfs (by omega) (by simpa using ht')),
    expect_back _ _ _ _ ht' (by simp)]
  exact endStatement_bind _ c

/-- A statement is read in one step, with the newline that ends it. -/
theorem statements_sentence {n : Nat} {ts : List Token} {s : Statement} {c : Cursor} (h : Sentence ts s)
    (hn : ts.length ≤ n + 1) (hc : c.StatementEnd) :
    statements (n + 1) (c.back ts) = (statements n >>= fun p => pure (s :: p)) c.pastNewline := by
  rw [statements, kind_bind]
  cases h with
  | definition ht hname hassign hvalue =>
    simp only [List.length_cons] at hn
    rw [current_back_cons, ht]
    exact bind_of_ok _ (definition_accepts ht hname hassign hvalue (by omega) hc)
  | chain ht hname hassign hsteps =>
    simp only [List.length_cons] at hn
    rw [current_back_cons, ht]
    exact bind_of_ok _ (chain_accepts ht hname hassign hsteps (by omega) hc)
  | chainWith ht hname hassign hw hbody =>
    simp only [List.length_cons] at hn
    rw [current_back_cons, ht]
    exact bind_of_ok _ (chainWith_accepts ht hname hassign hw hbody (by omega))
  | schema ht hname hfs =>
    simp only [List.length_cons] at hn
    rw [current_back_cons, ht]
    exact bind_of_ok _ (schema_accepts ht hname hfs (by omega))

end Parser

end ChainCompiler
