import ChainCompiler.Parser.Statement
import ChainCompiler.Proofs.Soundness.Pipeline

/-! Whatever the parsers of statements and programs read is derived by the grammar, and a program is read up to an
end of input. -/

namespace ChainCompiler.Grammar

theorem Sentences.newlines {nl ts : List Token} {p : Program} (hnl : Newlines nl) (h : Sentences ts p) :
    Sentences (nl ++ ts) p := by
  induction nl with
  | nil => exact h
  | cons t nl ih => exact .newline (hnl t (by simp)) (ih fun u hu => hnl u (by simp [hu]))

end ChainCompiler.Grammar

namespace ChainCompiler.Parser

open Grammar

/-- A statement with the newline that may end it. -/
def Ended (ts : List Token) (s : Statement) : Prop := ∃ us nl, ts = us ++ nl ∧ Sentence us s ∧ Newlines nl

theorem endStatement_reads : Reads endStatement fun ts _ => Newlines ts := by
  intro c c' u hc hp
  simp only [endStatement, bind_eq_ok] at hp
  obtain ⟨b, _, hb, hp⟩ := hp
  cases hb
  split at hp
  · next hnewline =>
    have hk : c.current.kind = .newline := by simpa using hnewline
    obtain ⟨c₁, hc₁, hback, hp⟩ := next_bind_reads hc (by simp [hk]) hp
    cases hp
    exact ⟨hc₁, _, hback, by simpa [Newlines] using hk⟩
  · cases hp
    exact ⟨hc, [], rfl, newlines_nil⟩

theorem heading_reads (k : Keyword) (want : Want) :
    Reads (heading k want) fun ts x =>
      ∃ t name, ts = [t, name] ∧ t.kind = .keyword k ∧ name.kind = .identifier ∧ x = (t.pos.line, name.text) := by
  intro c c' x hc hp
  simp only [heading, bind_eq_ok] at hp
  obtain ⟨t, c₁, h₁, s, c₂, h₂, hp⟩ := hp
  cases hp
  obtain ⟨hc₁, _, rfl, rfl, ht⟩ := expect_reads (by simp) _ hc h₁
  obtain ⟨hc₂, _, rfl, name, rfl, hname, rfl⟩ := expectIdentifier_reads _ hc₁ h₂
  refine ⟨hc₂, _, ?_, t, name, rfl, ht, hname, rfl⟩
  simp [← Cursor.back_append]

theorem definition_reads (n : Nat) : Reads (definition n) Ended := by
  intro c c' s hc hp
  simp only [definition, bind_eq_ok] at hp
  obtain ⟨x, c₁, h₁, assign, c₂, h₂, value, c₃, h₃, _, c₄, h₄, hp⟩ := hp
  cases hp
  obtain ⟨hc₁, _, rfl, t, name, rfl, ht, hname, rfl⟩ := heading_reads _ _ hc h₁
  obtain ⟨hc₂, _, rfl, rfl, hassign⟩ := expect_reads (by simp) _ hc₁ h₂
  obtain ⟨hc₃, ts, rfl, hvalue⟩ := step_reads (routerBlock_reads n) n hc₂ h₃
  obtain ⟨hc₄, nl, rfl, hnl⟩ := endStatement_reads hc₃ h₄
  refine ⟨hc₄, _, ?_, _, nl, rfl, .definition ht hname hassign hvalue, hnl⟩
  simp [← Cursor.back_append]

theorem contextBody_reads (n : Nat) : Reads (contextBody n) ContextBody := by
  intro c c' x hc hp
  simp only [contextBody, bind_eq_ok] at hp
  obtain ⟨memory, c₁, h₁, m, c₂, h₂, o, c₃, h₃, _, c₄, h₄, steps, c₅, h₅, _, c₆, h₆, t, c₇, h₇, hp⟩ := hp
  cases hp
  obtain ⟨hc₁, _, rfl, rfl, hmemory⟩ := expect_reads (by simp) _ hc h₁
  obtain ⟨hc₂, ts, rfl, args, hargs, rfl⟩ := call_reads (expr_reads n) n _ hc₁ h₂
  obtain ⟨hc₃, _, rfl, rfl, ho⟩ := expect_reads (by simp) _ hc₂ h₃
  obtain ⟨hc₄, nl, rfl, hnl⟩ := skipNewlines_reads hc₃ h₄
  obtain ⟨hc₅, us, rfl, hsteps⟩ := pipeline_reads (routerBlock_reads n) n true hc₄ h₅
  obtain ⟨hc₆, nl', rfl, hnl'⟩ := skipNewlines_reads hc₅ h₆
  obtain ⟨hc₇, _, rfl, rfl, ht⟩ := expect_reads (by simp) _ hc₆ h₇
  refine ⟨hc₇, _, ?_, .mk hmemory hargs ho hnl hsteps hnl' ht⟩
  simp [← Cursor.back_append]

theorem chain_reads (n : Nat) : Reads (chain n) Ended := by
  intro c c' s hc hp
  simp only [chain, bind_eq_ok] at hp
  obtain ⟨x, c₁, h₁, assign, c₂, h₂, b, _, hb, hp⟩ := hp
  cases hb
  obtain ⟨hc₁, _, rfl, t, name, rfl, ht, hname, rfl⟩ := heading_reads _ _ hc h₁
  obtain ⟨hc₂, _, rfl, rfl, hassign⟩ := expect_reads (by simp) _ hc₁ h₂
  split at hp
  · next hwith =>
    have hk : c₂.current.kind = .keyword .withKw := by simpa using hwith
    obtain ⟨c₃, hc₃, hback, hp⟩ := next_bind_reads hc₂ (by simp [hk]) hp
    simp only [bind_eq_ok] at hp
    obtain ⟨⟨steps, context⟩, c₄, h₄, _, c₅, h₅, hp⟩ := hp
    cases hp
    obtain ⟨hc₄, ts, rfl, hbody⟩ := contextBody_reads n hc₃ h₄
    obtain ⟨hc₅, nl, rfl, hnl⟩ := endStatement_reads hc₄ h₅
    refine ⟨hc₅, _, ?_, _, nl, rfl, .chainWith ht hname hassign hk hbody, hnl⟩
    rw [hback]
    simp [← Cursor.back_append]
  · simp only [bind_eq_ok] at hp
    obtain ⟨steps, c₃, h₃, x, _, hx, _, c₅, h₅, hp⟩ := hp
    cases hx
    cases hp
    obtain ⟨hc₃, ts, rfl, hsteps⟩ := pipeline_reads (routerBlock_reads n) n false hc₂ h₃
    obtain ⟨hc₅, nl, rfl, hnl⟩ := endStatement_reads hc₃ h₅
    refine ⟨hc₅, _, ?_, _, nl, rfl, .chain ht hname hassign hsteps, hnl⟩
    simp [← Cursor.back_append]

theorem fieldEnd_reads : Reads fieldEnd fun ts _ => FieldEnd ts := by
  intro c c' u hc hp
  simp only [fieldEnd, bind_eq_ok] at hp
  obtain ⟨k, _, hk, hp⟩ := hp
  cases hk
  cases hk : c.current.kind with
  | newline =>
    rw [hk] at hp
    obtain ⟨c₁, hc₁, hback, hp⟩ := next_bind_reads hc (by simp [hk]) hp
    obtain ⟨hc₂, nl, rfl, hnl⟩ := skipNewlines_reads hc₁ hp
    exact ⟨hc₂, _, hback.trans (Cursor.back_cons ..).symm, .cons (.inr hk) hnl⟩
  | identifier =>
    rw [hk] at hp
    cases hp
    exact ⟨hc, [], rfl, .nil⟩
  | mark m =>
    rw [hk] at hp
    cases m with
    | comma =>
      obtain ⟨c₁, hc₁, hback, hp⟩ := next_bind_reads hc (by simp [hk]) hp
      obtain ⟨hc₂, nl, rfl, hnl⟩ := skipNewlines_reads hc₁ hp
      exact ⟨hc₂, _, hback.trans (Cursor.back_cons ..).symm, .cons (.inl hk) hnl⟩
    | rbrace =>
      cases hp
      exact ⟨hc, [], rfl, .nil⟩
    | _ => cases hp
  | _ => rw [hk] at hp; cases hp

theorem fields_reads (n : Nat) : Reads (fields n) Fields := by
  induction n with
  | zero => intro c c' fs hc hp; cases hp
  | succ n ih =>
    intro c c' fs hc hp
    simp only [fields, bind_eq_ok] at hp
    obtain ⟨b, _, hb, hp⟩ := hp
    cases hb
    split at hp
    · cases hp
      exact ⟨hc, [], rfl, .nil⟩
    simp only [bind_eq_ok] at hp
    obtain ⟨_, c₁, h₁, colon, c₂, h₂, _, c₃, h₃, _, c₄, h₄, fs', c₅, h₅, hp⟩ := hp
    cases hp
    obtain ⟨hc₁, _, rfl, name, rfl, hname, rfl⟩ := expectIdentifier_reads _ hc h₁
    obtain ⟨hc₂, _, rfl, rfl, hcolon⟩ := expect_reads (by simp) _ hc₁ h₂
    obtain ⟨hc₃, _, rfl, type, rfl, htype, rfl⟩ := expectIdentifier_reads _ hc₂ h₃
    obtain ⟨hc₄, us, rfl, hend⟩ := fieldEnd_reads hc₃ h₄
    obtain ⟨hc₅, vs, rfl, hfs⟩ := ih hc₄ h₅
    refine ⟨hc₅, _, ?_, .cons hname hcolon htype hend hfs⟩
    simp [← Cursor.back_append]

theorem schema_reads (n : Nat) : Reads (schema n) Ended := by
  intro c c' s hc hp
  simp only [schema, bind_eq_ok] at hp
  obtain ⟨x, c₁, h₁, o, c₂, h₂, _, c₃, h₃, fs, c₄, h₄, t', c₅, h₅, _, c₆, h₆, hp⟩ := hp
  cases hp
  obtain ⟨hc₁, _, rfl, t, name, rfl, ht, hname, rfl⟩ := heading_reads _ _ hc h₁
  obtain ⟨hc₂, _, rfl, rfl, ho⟩ := expect_reads (by simp) _ hc₁ h₂
  obtain ⟨hc₃, nl, rfl, hnl⟩ := skipNewlines_reads hc₂ h₃
  obtain ⟨hc₄, ts, rfl, hfs⟩ := fields_reads _ hc₃ h₄
  obtain ⟨hc₅, _, rfl, rfl, ht'⟩ := expect_reads (by simp) _ hc₄ h₅
  obtain ⟨hc₆, nl', rfl, hnl'⟩ := endStatement_reads hc₅ h₆
  refine ⟨hc₆, _, ?_, _, nl', rfl, .schema ht hname (.mk ho hnl hfs ht'), hnl'⟩
  simp [← Cursor.back_append]

/-- A statement and the statements after it. -/
theorem Ended.cons {ts us : List Token} {s : Statement} {p : Program} (h : Ended ts s) (hp : Sentences us p) :
    Sentences (ts ++ us) (s :: p) := by
  obtain ⟨vs, nl, rfl, hs, hnl⟩ := h
  rw [List.append_assoc]
  exact .cons hs (hp.newlines hnl)

theorem statements_reads (n : Nat) {c c' : Cursor} {p : Program} (hc : c.Closed) (hp : statements n c = .ok (p, c')) :
    c'.current.kind = .eof ∧ ∃ ts, c = c'.back ts ∧ Sentences ts p := by
  induction n generalizing c p with
  | zero => cases hp
  | succ n ih =>
    have hmore : ∀ {P : Parser Statement}, Reads P Ended →
        (P >>= fun s => statements n >>= fun p => pure (s :: p)) c = .ok (p, c') →
        c'.current.kind = .eof ∧ ∃ ts, c = c'.back ts ∧ Sentences ts p := by
      intro P hP hp
      simp only [bind_eq_ok] at hp
      obtain ⟨s, c₁, h₁, p', c₂, h₂, hp⟩ := hp
      cases hp
      obtain ⟨hc₁, ts, rfl, hs⟩ := hP hc h₁
      obtain ⟨he, us, rfl, hp'⟩ := ih hc₁ h₂
      exact ⟨he, ts ++ us, (Cursor.back_append ..).symm, hs.cons hp'⟩
    simp only [statements] at hp
    obtain ⟨k, _, hk, hp⟩ := bind_eq_ok.1 hp
    cases hk
    cases hk : c.current.kind with
    | eof =>
      rw [hk] at hp
      cases hp
      exact ⟨hk, [], rfl, .nil⟩
    | newline =>
      rw [hk] at hp
      obtain ⟨c₁, hc₁, hback, hp⟩ := next_bind_reads hc (by simp [hk]) hp
      obtain ⟨he, ts, rfl, hts⟩ := ih hc₁ hp
      exact ⟨he, _, hback.trans (Cursor.back_cons ..).symm, .newline hk hts⟩
    | keyword k =>
      rw [hk] at hp
      cases k with
      | defKw => exact hmore (definition_reads n) hp
      | chainKw => exact hmore (chain_reads n) hp
      | schemaKw => exact hmore (schema_reads n) hp
      | _ => cases hp
    | _ => rw [hk] at hp; cases hp

end ChainCompiler.Parser
