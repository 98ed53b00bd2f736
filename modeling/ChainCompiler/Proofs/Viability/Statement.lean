import ChainCompiler.Proofs.Soundness.Statement
import ChainCompiler.Proofs.Viability.Pipeline

/-! Where the parsers of statements fail, what they read can be completed to a program. -/

namespace ChainCompiler.Parser

open Grammar

theorem Ended.of_sentence {ts : List Token} {s : Statement} (h : Sentence ts s) : Ended ts s :=
  ⟨ts, [], by simp, h, newlines_nil⟩

theorem endStatement_stalls {G : List Token → Prop} : Stalls endStatement G := by
  rw [endStatement]
  exact .ifAt (by simp) (fun _ _ => .pure) .pure

abbrev BeginsStatement : List Token → Prop := Completable Anywhere fun ts => ∃ s, Ended ts s

/-- A heading that is broken off is completed together with the shortest statement that it can start. -/
theorem heading_stalls {k : Keyword} {want : Want} {ks : List Kind} (hks : ks.all isSpellable = true)
    (h : ∀ t name us, t.kind = .keyword k → name.kind = .identifier → us.map Token.kind = ks →
      ∃ s, Ended (t :: name :: us) s) : Stalls (heading k want) BeginsStatement := by
  rw [heading]
  refine .bind (expect_reads (by simp) _) (.expect (.of_viable ?_)) ?_
  · refine .complete (.keyword k :: .identifier :: ks) hks fun us hus => ?_
    obtain ⟨t, _, rfl, ht, hus⟩ := List.map_eq_cons_iff.1 hus
    obtain ⟨name, vs, rfl, hname, hvs⟩ := List.map_eq_cons_iff.1 hus
    exact h t name vs ht hname hvs
  rintro _ t ⟨rfl, ht⟩
  refine .bind (expectIdentifier_reads _) (.expectIdentifier (.of_viable ?_)) fun _ _ _ => .pure
  refine .complete (.identifier :: ks) hks fun us hus => ?_
  obtain ⟨name, vs, rfl, hname, hvs⟩ := List.map_eq_cons_iff.1 hus
  exact h t name vs ht hname hvs

theorem definition_stalls (n : Nat) : Stalls (definition n) BeginsStatement := by
  have hshort : ∀ t name us, t.kind = .keyword .defKw → name.kind = .identifier →
      us.map Token.kind = [.mark .assign, .identifier] → ∃ s, Ended (t :: name :: us) s := by
    intro t name us ht hname hus
    simp only [List.map_eq_cons_iff, List.map_eq_nil_iff] at hus
    obtain ⟨assign, _, rfl, hassign, v, _, rfl, hv, rfl⟩ := hus
    exact ⟨_, .of_sentence (.definition ht hname hassign (step_of_identifier hv))⟩
  rw [definition]
  refine .bind (heading_reads _ _) (heading_stalls rfl hshort) ?_
  rintro _ _ ⟨t, name, rfl, ht, hname, rfl⟩
  have hnamed : BeginsStatement [t, name] := .of_viable (.complete _ rfl fun us => hshort t name us ht hname)
  refine .bind (expect_reads (by simp) _) (.expect hnamed) ?_
  rintro _ assign ⟨rfl, hassign⟩
  have hstep := step_stalls (routerBlock_reads n) (routerBlock_stalls n) n
  refine .bind (step_reads (routerBlock_reads n) n) (hstep.imp fun us hus => ?_) fun _ _ _ => ?_
  · refine hus.behind [t, name, assign] (fun _ _ => Nesting.atValue_read hassign (by decide)) ?_
    rintro vs ⟨e, he⟩
    exact ⟨_, .of_sentence (.definition ht hname hassign he)⟩
  · exact .bind endStatement_reads endStatement_stalls fun _ _ _ => .pure

theorem contextBody_stalls (n : Nat) :
    Stalls (contextBody n) (Completable Anywhere fun ts => ∃ x, ContextBody ts x) := by
  -- a body of one name
  have hname : ∀ {memory o v c : Token} {ts : List Token} {args : List Argument}, memory.kind = .keyword .memoryKw →
      Args ts args → o.kind = .mark .lbrace → v.kind = .identifier → c.kind = .mark .rbrace →
      ∃ x, ContextBody (memory :: (ts ++ [o, v, c])) x :=
    fun hmemory hargs ho hv hc =>
      ⟨_, .mk hmemory hargs ho newlines_nil (pipeline_of_identifier hv) newlines_nil hc⟩
  rw [contextBody]
  refine .bind (expect_reads (by simp) _) (.expect (.of_viable ?_)) ?_
  · refine .complete [.keyword .memoryKw, .mark .lparen, .mark .rparen, .mark .lbrace, .identifier, .mark .rbrace] rfl
      fun us hus => ?_
    simp only [List.map_eq_cons_iff, List.map_eq_nil_iff] at hus
    obtain ⟨memory, _, rfl, hmemory, o', _, rfl, ho', c', _, rfl, hc', hus⟩ := hus
    obtain ⟨o, _, rfl, ho, v, _, rfl, hv, c, _, rfl, hc, rfl⟩ := hus
    exact hname hmemory (args_nil ho' hc') ho hv hc
  rintro _ memory ⟨rfl, hmemory⟩
  have hcall := call_stalls (expr_reads n) (expr_stalls n) n Keyword.memoryKw.spelling
  refine .bind (call_reads (expr_reads n) n _) (hcall.imp fun us hus => ?_) ?_
  · refine hus.2.behind_then [memory] (fun _ _ => trivial) [.mark .lbrace, .identifier, .mark .rbrace] rfl ?_
    rintro vs ws ⟨args, hargs⟩ hws
    simp only [List.map_eq_cons_iff, List.map_eq_nil_iff] at hws
    obtain ⟨o, _, rfl, ho, v, _, rfl, hv, c, _, rfl, hc, rfl⟩ := hws
    exact hname hmemory hargs ho hv hc
  rintro ts _ ⟨args, hargs, rfl⟩
  refine .bind (expect_reads (by simp) _) (.expect (.of_viable ?_)) ?_
  · refine .complete [.mark .lbrace, .identifier, .mark .rbrace] rfl fun ws hws => ?_
    simp only [List.map_eq_cons_iff, List.map_eq_nil_iff] at hws
    obtain ⟨o, _, rfl, ho, v, _, rfl, hv, c, _, rfl, hc, rfl⟩ := hws
    rw [List.append_nil]
    exact hname hmemory hargs ho hv hc
  rintro _ o ⟨rfl, ho⟩
  refine .bind skipNewlines_reads .skipNewlines fun nl _ hnl => ?_
  have hpipeline := pipeline_stalls (routerBlock_reads n) (routerBlock_stalls n) n true
  refine .bind (pipeline_reads (routerBlock_reads n) n true) (hpipeline.imp fun us hus => ?_) fun us steps hsteps => ?_
  · rw [← List.append_assoc [o], ← List.append_assoc ts, ← List.append_assoc [memory]]
    refine hus.behind_then _ (fun m _ => ?_) [.mark .rbrace] rfl ?_
    · rw [Nesting.reads_append, Nesting.reads_append, Nesting.reads_append, Nesting.reads_newlines hnl]
      exact Nesting.atValue_read ho (by decide)
    · rintro vs ws ⟨steps, hsteps⟩ hws
      obtain ⟨c, rfl, hc⟩ := List.map_eq_singleton_iff.1 hws
      have hbody := ContextBody.mk hmemory hargs ho hnl hsteps newlines_nil hc
      exact ⟨_, by simpa using hbody⟩
  refine .bind skipNewlines_reads .skipNewlines fun nl' _ hnl' => ?_
  refine .bind (expect_reads (by simp) _) (.expect (.of_viable ?_)) fun _ _ _ => .pure
  refine .complete [.mark .rbrace] rfl fun ws hws => ?_
  obtain ⟨c, rfl, hc⟩ := List.map_eq_singleton_iff.1 hws
  have hbody := ContextBody.mk hmemory hargs ho hnl hsteps hnl' hc
  exact ⟨_, by simpa using hbody⟩

theorem chain_stalls (n : Nat) : Stalls (chain n) BeginsStatement := by
  have hshort : ∀ t name us, t.kind = .keyword .chainKw → name.kind = .identifier →
      us.map Token.kind = [.mark .assign, .identifier] → ∃ s, Ended (t :: name :: us) s := by
    intro t name us ht hname hus
    simp only [List.map_eq_cons_iff, List.map_eq_nil_iff] at hus
    obtain ⟨assign, _, rfl, hassign, v, _, rfl, hv, rfl⟩ := hus
    exact ⟨_, .of_sentence (.chain ht hname hassign (pipeline_of_identifier hv))⟩
  rw [chain]
  refine .bind (heading_reads _ _) (heading_stalls rfl hshort) ?_
  rintro _ _ ⟨t, name, rfl, ht, hname, rfl⟩
  have hnamed : BeginsStatement [t, name] := .of_viable (.complete _ rfl fun us => hshort t name us ht hname)
  refine .bind (expect_reads (by simp) _) (.expect hnamed) ?_
  rintro _ assign ⟨rfl, hassign⟩
  refine .ifAt (by simp) (fun w hw => ?_) ?_
  · refine .bind (contextBody_reads n) ((contextBody_stalls n).imp fun us hus => ?_) fun _ _ _ => ?_
    · refine hus.behind [t, name, assign, w] (fun _ _ => trivial) ?_
      rintro vs ⟨⟨steps, context⟩, hbody⟩
      exact ⟨_, .of_sentence (.chainWith ht hname hassign hw hbody)⟩
    · exact .bind endStatement_reads endStatement_stalls fun _ _ _ => .pure
  · have hpipeline := pipeline_stalls (routerBlock_reads n) (routerBlock_stalls n) n false
    refine .bind (pipeline_reads (routerBlock_reads n) n false) (hpipeline.imp fun us hus => ?_) fun _ _ _ => ?_
    · refine hus.behind [t, name, assign] (fun _ _ => Nesting.atValue_read hassign (by decide)) ?_
      rintro vs ⟨steps, hsteps⟩
      exact ⟨_, .of_sentence (.chain ht hname hassign hsteps)⟩
    · refine .peek (fun _ => ⟨_, rfl⟩) fun x => ?_
      obtain ⟨steps, context⟩ := x
      exact .bind endStatement_reads endStatement_stalls fun _ _ _ => .pure

theorem fieldEnd_stalls {G : List Token → Prop} (h : G []) : Stalls fieldEnd G := by
  refine .here (fun c want t hp => ?_) h
  rw [fieldEnd, kind_bind] at hp
  cases hk : c.current.kind with
  | mark m =>
    rw [hk] at hp
    cases m <;> cases hp <;> rfl
  | _ => rw [hk] at hp; cases hp <;> rfl

theorem fields_stalls (n : Nat) : Stalls (fields n) (Completable Anywhere fun ts => ∃ fs, Fields ts fs) := by
  have hnil : Completable Anywhere (fun ts => ∃ fs, Fields ts fs) [] := .of_viable (.of ⟨[], .nil⟩)
  induction n with
  | zero => exact .fail hnil
  | succ n ih =>
    rw [fields]
    refine .peek (fun _ => ⟨_, rfl⟩) fun b => ?_
    split
    · exact .pure
    refine .bind (expectIdentifier_reads _) (.expectIdentifier hnil) ?_
    rintro _ _ ⟨name, rfl, hname, rfl⟩
    refine .bind (expect_reads (by simp) _) (.expect (.of_viable ?_)) ?_
    · refine .complete [.mark .colon, .identifier] rfl fun us hus => ?_
      simp only [List.map_eq_cons_iff, List.map_eq_nil_iff] at hus
      obtain ⟨colon, _, rfl, hcolon, type, _, rfl, htype, rfl⟩ := hus
      exact ⟨_, Fields.cons hname hcolon htype .nil .nil⟩
    rintro _ colon ⟨rfl, hcolon⟩
    refine .bind (expectIdentifier_reads _) (.expectIdentifier (.of_viable ?_)) ?_
    · refine .complete [.identifier] rfl fun us hus => ?_
      obtain ⟨type, rfl, htype⟩ := List.map_eq_singleton_iff.1 hus
      exact ⟨_, Fields.cons hname hcolon htype .nil .nil⟩
    rintro _ _ ⟨type, rfl, htype, rfl⟩
    have hfield : Fields [name, colon, type] _ := .cons hname hcolon htype .nil .nil
    refine .bind fieldEnd_reads (fieldEnd_stalls (.of_viable (.of ⟨_, hfield⟩))) fun us _ hus => ?_
    refine .bind (fields_reads n) (ih.imp fun vs hvs => ?_) fun _ _ _ => .pure
    refine hvs.behind (name :: colon :: type :: us) (fun _ _ => trivial) ?_
    rintro ws ⟨fs, hfs⟩
    exact ⟨_, .cons hname hcolon htype hus hfs⟩

theorem schema_stalls (n : Nat) : Stalls (schema n) BeginsStatement := by
  have hshort : ∀ t name us, t.kind = .keyword .schemaKw → name.kind = .identifier →
      us.map Token.kind = [.mark .lbrace, .mark .rbrace] → ∃ s, Ended (t :: name :: us) s := by
    intro t name us ht hname hus
    simp only [List.map_eq_cons_iff, List.map_eq_nil_iff] at hus
    obtain ⟨o, _, rfl, ho, c, _, rfl, hc, rfl⟩ := hus
    exact ⟨_, .of_sentence (.schema ht hname (.mk ho newlines_nil Fields.nil hc))⟩
  rw [schema]
  refine .bind (heading_reads _ _) (heading_stalls rfl hshort) ?_
  rintro _ _ ⟨t, name, rfl, ht, hname, rfl⟩
  have hnamed : BeginsStatement [t, name] := .of_viable (.complete _ rfl fun us => hshort t name us ht hname)
  refine .bind (expect_reads (by simp) _) (.expect hnamed) ?_
  rintro _ o ⟨rfl, ho⟩
  refine .bind skipNewlines_reads .skipNewlines fun nl _ hnl => ?_
  refine .bind (fields_reads _) ((fields_stalls _).imp fun us hus => ?_) fun us fs hfs => ?_
  · refine hus.behind_then (t :: name :: o :: nl) (fun _ _ => trivial) [.mark .rbrace] rfl ?_
    rintro vs ws ⟨fs, hfs⟩ hws
    obtain ⟨c, rfl, hc⟩ := List.map_eq_singleton_iff.1 hws
    exact ⟨_, .of_sentence (.schema ht hname (.mk ho hnl hfs hc))⟩
  refine .bind (expect_reads (by simp) _) (.expect (.of_viable ?_)) fun _ _ _ => ?_
  · refine .complete [.mark .rbrace] rfl fun ws hws => ?_
    obtain ⟨c, rfl, hc⟩ := List.map_eq_singleton_iff.1 hws
    have hschema := Sentence.schema ht hname (.mk ho hnl hfs hc)
    exact ⟨_, .of_sentence (by simpa using hschema)⟩
  · exact .bind endStatement_reads endStatement_stalls fun _ _ _ => .pure

abbrev BeginsProgram : List Token → Prop := Completable Anywhere fun ts => ∃ p, Sentences ts p

theorem statements_stalls (n : Nat) : Stalls (statements n) BeginsProgram := by
  have hnil : BeginsProgram [] := .of_viable (.of ⟨[], .nil⟩)
  induction n with
  | zero => exact .fail hnil
  | succ n ih =>
    -- one statement of any kind, with those after it
    have hcons : ∀ {P : Parser Statement}, Reads P Ended → Stalls P BeginsStatement →
        Stalls (P >>= fun s => statements n >>= fun p => pure (s :: p)) BeginsProgram := by
      intro P hreads hstalls
      refine .bind hreads (hstalls.imp fun us hus => ?_) fun us s hs => ?_
      · refine hus.behind [] (fun _ hm => hm) ?_
        rintro vs ⟨s, hs⟩
        exact ⟨[s], by simpa using hs.cons .nil⟩
      · intro c want t hc hp
        rcases bind_eq_error.1 hp with hmore | ⟨_, _, _, hpure⟩
        · obtain ⟨vs, hstops, hvs⟩ := ih hc hmore
          refine ⟨vs, hstops, hvs.behind us (fun _ _ => trivial) ?_⟩
          rintro ws ⟨p, hp⟩
          exact ⟨s :: p, hs.cons hp⟩
        · cases hpure
    intro c want t hc hp
    rw [statements, kind_bind] at hp
    cases hk : c.current.kind with
    | eof => rw [hk] at hp; cases hp
    | newline =>
      rw [hk] at hp
      refine Stalls.next_bind (by simp [hk]) (ih.imp fun us hus => ?_) hc hp
      refine hus.behind [c.current] (fun _ _ => trivial) ?_
      rintro vs ⟨p, hp⟩
      exact ⟨p, .newline hk hp⟩
    | keyword k =>
      rw [hk] at hp
      cases k with
      | defKw => exact hcons (definition_reads n) (definition_stalls n) hc hp
      | chainKw => exact hcons (chain_reads n) (chain_stalls n) hc hp
      | schemaKw => exact hcons (schema_reads n) (schema_stalls n) hc hp
      | _ => exact Stalls.fail hnil hc hp
    | _ => rw [hk] at hp; exact Stalls.fail hnil hc hp

end ChainCompiler.Parser
