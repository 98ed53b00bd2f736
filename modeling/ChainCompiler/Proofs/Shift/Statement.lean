import ChainCompiler.Proofs.Shift.Pipeline

/-! The parsers of statements track themselves. A statement that is moved down has its line moved, and nothing else. -/

namespace ChainCompiler.Parser

variable {k : Nat} {c : Cursor}

theorem endStatement_tracks (hc : c.Closed) : Tracks k 0 (fun u => u) endStatement endStatement c := by
  simp only [endStatement]
  refine .ifAt (fun hk => ?_) fun _ => .pure hc _
  exact (Tracks.next hc (by simp [hk])).bind fun _ c₁ hc₁ _ => .pure hc₁ _

theorem heading_tracks (keyword : Keyword) (want : Want) (hc : c.Closed) :
    Tracks k 1 (fun x => (x.1 + k, x.2)) (heading keyword want) (heading keyword want) c := by
  simp only [heading]
  refine (Tracks.expect _ hc (by simp)).bind fun t c₁ hc₁ _ => ?_
  refine (Tracks.expectIdentifier _ hc₁).bind fun name c₂ hc₂ _ => ?_
  exact .pure hc₂ (t.pos.line, name)

theorem definition_tracks {n m : Nat} (hc : c.Closed) (hn : c.rest.length ≤ n) (hm : c.rest.length ≤ m) :
    Tracks k 1 (Statement.down k) (definition n) (definition m) c := by
  simp only [definition]
  refine (heading_tracks _ _ hc).bind fun x c₁ hc₁ hlen₁ => ?_
  refine (Tracks.expect _ hc₁ (by simp)).bind fun _ c₂ hc₂ hlen₂ => ?_
  have hblock : TracksBelow k c₂.rest.length (routerBlock n) (routerBlock m) := routerBlock_tracks (by omega) (by omega)
  refine (step_tracks hblock hc₂ (Nat.le_refl _) (by omega) (by omega)).bind fun value c₃ hc₃ _ => ?_
  refine (endStatement_tracks hc₃).bind fun _ c₄ hc₄ _ => ?_
  exact .pure hc₄ (Statement.mk x.2 x.1 (.definition value))

theorem contextBody_tracks {n m : Nat} (hc : c.Closed) (hn : c.rest.length ≤ n) (hm : c.rest.length ≤ m) :
    Tracks k 1 (fun x => x) (contextBody n) (contextBody m) c := by
  simp only [contextBody]
  refine (Tracks.expect _ hc (by simp)).bind fun _ c₁ hc₁ hlen₁ => ?_
  have hinner : TracksBelow k c₁.rest.length (expr n) (expr m) :=
    fun c' hc' hlen => expr_tracks hc' (by omega) (by omega)
  refine (call_tracks hinner _ hc₁ (Nat.le_refl _) (by omega) (by omega)).bind fun context c₂ hc₂ hlen₂ => ?_
  refine (Tracks.expect _ hc₂ (by simp)).bind fun _ c₃ hc₃ hlen₃ => ?_
  refine (Tracks.skipNewlines hc₃).bind fun _ c₄ hc₄ hlen₄ => ?_
  have hblock : TracksBelow k c₄.rest.length (routerBlock n) (routerBlock m) := routerBlock_tracks (by omega) (by omega)
  refine (pipeline_tracks hblock true hc₄ (Nat.le_refl _) (by omega) (by omega)).bind fun steps c₅ hc₅ _ => ?_
  refine (Tracks.skipNewlines hc₅).bind fun _ c₆ hc₆ _ => ?_
  refine (Tracks.expect _ hc₆ (by simp)).bind fun _ c₇ hc₇ _ => ?_
  exact .pure hc₇ _

theorem chain_tracks {n m : Nat} (hc : c.Closed) (hn : c.rest.length ≤ n) (hm : c.rest.length ≤ m) :
    Tracks k 1 (Statement.down k) (chain n) (chain m) c := by
  simp only [chain]
  refine (heading_tracks _ _ hc).bind fun x c₁ hc₁ hlen₁ => ?_
  refine (Tracks.expect _ hc₁ (by simp)).bind fun _ c₂ hc₂ hlen₂ => ?_
  have hend : ∀ (body : List Expr × Option Call) {c₃ : Cursor}, c₃.Closed → Tracks k 0 (Statement.down k)
      (endStatement >>= fun _ => pure ⟨x.2, x.1, .chain body.1 body.2⟩)
      (endStatement >>= fun _ => pure ⟨x.2, x.1 + k, .chain body.1 body.2⟩) c₃ := by
    intro body c₃ hc₃
    refine (endStatement_tracks hc₃).bind fun _ c₄ hc₄ _ => ?_
    exact .pure hc₄ (Statement.mk x.2 x.1 (.chain body.1 body.2))
  refine .ifAt (fun hwith => ?_) fun _ => ?_
  · refine (Tracks.next hc₂ (by simp [hwith])).bind fun _ c₃ hc₃ hlen₃ => ?_
    exact (contextBody_tracks hc₃ (by omega) (by omega)).bind fun body c₄ hc₄ _ => hend body hc₄
  · have hblock : TracksBelow k c₂.rest.length (routerBlock n) (routerBlock m) :=
      routerBlock_tracks (by omega) (by omega)
    refine (pipeline_tracks hblock false hc₂ (Nat.le_refl _) (by omega) (by omega)).bind fun steps c₃ hc₃ _ => ?_
    exact hend (steps, none) hc₃

theorem fieldEnd_tracks (hc : c.Closed) : Tracks k 0 (fun u => u) fieldEnd fieldEnd c := by
  simp only [fieldEnd]
  refine .kind ?_
  have hnext : c.current.kind ≠ .eof →
      Tracks k 0 (fun u => u) (next >>= fun _ => skipNewlines) (next >>= fun _ => skipNewlines) c := by
    intro hk
    exact (Tracks.next hc hk).bind fun _ c₁ hc₁ _ => .skipNewlines hc₁
  cases hk : c.current.kind with
  | newline => exact hnext (by simp [hk])
  | identifier => exact .pure hc _
  | mark j =>
    cases j with
    | comma => exact hnext (by simp [hk])
    | rbrace => exact .pure hc _
    | _ => exact .fail _
  | _ => exact .fail _

theorem fields_tracks (n : Nat) :
    ∀ (m : Nat) {c : Cursor}, c.Closed → c.rest.length < n → c.rest.length < m →
      Tracks k 0 (fun fs => fs) (fields n) (fields m) c := by
  induction n with
  | zero => intro m c _ hn; omega
  | succ n ih =>
    intro m c hc hn hm
    obtain ⟨m, rfl⟩ : ∃ j, m = j + 1 := ⟨m - 1, by omega⟩
    simp only [fields]
    refine .ifAt (fun _ => .pure hc _) fun _ => ?_
    refine (Tracks.expectIdentifier _ hc).bind fun name c₁ hc₁ hlen₁ => ?_
    refine (Tracks.expect _ hc₁ (by simp)).bind fun _ c₂ hc₂ hlen₂ => ?_
    refine (Tracks.expectIdentifier _ hc₂).bind fun typeName c₃ hc₃ hlen₃ => ?_
    refine (fieldEnd_tracks hc₃).bind fun _ c₄ hc₄ hlen₄ => ?_
    refine (ih m hc₄ (by omega) (by omega)).bind fun fs c₅ hc₅ _ => ?_
    exact .pure hc₅ _

theorem schema_tracks {n m : Nat} (hc : c.Closed) (hn : c.rest.length ≤ n) (hm : c.rest.length ≤ m) :
    Tracks k 1 (Statement.down k) (schema n) (schema m) c := by
  simp only [schema]
  refine (heading_tracks _ _ hc).bind fun x c₁ hc₁ hlen₁ => ?_
  refine (Tracks.expect _ hc₁ (by simp)).bind fun _ c₂ hc₂ hlen₂ => ?_
  refine (Tracks.skipNewlines hc₂).bind fun _ c₃ hc₃ hlen₃ => ?_
  refine (fields_tracks _ _ hc₃ (by omega) (by omega)).bind fun fs c₄ hc₄ _ => ?_
  refine (Tracks.expect _ hc₄ (by simp)).bind fun _ c₅ hc₅ _ => ?_
  refine (endStatement_tracks hc₅).bind fun _ c₆ hc₆ _ => ?_
  exact .pure hc₆ (Statement.mk x.2 x.1 (.schema fs))

/-- Statements are read, or an error is found, under any two bounds and on any line alike. -/
theorem statements_tracks (n : Nat) :
    ∀ (m : Nat) {c : Cursor}, c.Closed → c.rest.length < n → c.rest.length < m →
      Tracks k 0 (List.map (Statement.down k)) (statements n) (statements m) c := by
  induction n with
  | zero => intro m c _ hn; omega
  | succ n ih =>
    intro m c hc hn hm
    obtain ⟨m, rfl⟩ : ∃ j, m = j + 1 := ⟨m - 1, by omega⟩
    have hmore : ∀ {P Q : Parser Statement}, Tracks k 1 (Statement.down k) P Q c →
        Tracks k 0 (List.map (Statement.down k)) (P >>= fun s => statements n >>= fun p => pure (s :: p))
          (Q >>= fun s => statements m >>= fun p => pure (s :: p)) c := by
      intro P Q hPQ
      refine hPQ.bind fun s c₁ hc₁ hlen₁ => ?_
      refine (ih m hc₁ (by omega) (by omega)).bind fun p c₂ hc₂ _ => ?_
      exact .pure hc₂ (s :: p)
    simp only [statements]
    refine .kind ?_
    cases hk : c.current.kind with
    | eof => exact .pure hc []
    | newline => exact (Tracks.next hc (by simp [hk])).bind fun _ c₁ hc₁ hlen₁ => ih m hc₁ (by omega) (by omega)
    | keyword j =>
      cases j with
      | defKw => exact hmore (definition_tracks hc (by omega) (by omega))
      | chainKw => exact hmore (chain_tracks hc (by omega) (by omega))
      | schemaKw => exact hmore (schema_tracks hc (by omega) (by omega))
      | _ => exact .fail _
    | _ => exact .fail _

end ChainCompiler.Parser
