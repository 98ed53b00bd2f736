import ChainCompiler.Proofs.Indexed.Pipeline

/-! The machine follows the parsers of statements and of whole programs. -/

namespace ChainCompiler.Follows

variable {x : Input} {n i : Nat}

theorem endStatement : Follows x 0 Parser.endStatement (fun _ => Indexed.endStatement) i := by
  unfold Indexed.endStatement
  rw [Parser.endStatement]
  refine .ifAt (fun hk => ?_) fun _ => .pure _
  exact (Follows.next (by simp [hk])).bind fun _ _ _ _ => .pure _

theorem heading (k : Keyword) (want : Want) :
    Follows x 1 (Parser.heading k want) (fun _ => Indexed.heading k want) i := by
  unfold Indexed.heading
  rw [Parser.heading]
  refine (Follows.expect _ (by simp)).bind fun t i₁ hi₁ _ => ?_
  exact (Follows.expectIdentifier _).bind fun _ _ _ _ => .pure _

theorem definition (hi : i ≤ x.last) (hn : x.last - i ≤ n) :
    Follows x 1 (Parser.definition n) Indexed.definition i := by
  unfold Indexed.definition
  rw [Parser.definition]
  refine (heading _ _).bind fun y i₁ hi₁ hlt₁ => ?_
  refine (Follows.expect _ (by simp)).bind fun _ i₂ hi₂ hlt₂ => ?_
  have hblock : FollowsBelow x (x.last - i₂) (Parser.routerBlock n) Indexed.routerBlock := routerBlock (by omega)
  refine (step hblock hi₂ (Nat.le_refl _) (by omega)).bind fun value i₃ hi₃ _ => ?_
  exact endStatement.bind fun _ _ _ _ => .pure _

theorem contextBody (hi : i ≤ x.last) (hn : x.last - i ≤ n) :
    Follows x 1 (Parser.contextBody n) Indexed.contextBody i := by
  unfold Indexed.contextBody
  rw [Parser.contextBody]
  refine (Follows.expect _ (by simp)).bind fun _ i₁ hi₁ hlt₁ => ?_
  have hinner : FollowsBelow x (x.last - i₁) (Parser.expr n) Indexed.expr := fun j hj hlt => expr hj (by omega)
  refine (call hinner _ hi₁ (Nat.le_refl _) (by omega)).bind fun context i₂ hi₂ hlt₂ => ?_
  refine (Follows.expect _ (by simp)).bind fun _ i₃ hi₃ hlt₃ => ?_
  refine (Follows.skipNewlines hi₃).bind fun _ i₄ hi₄ hle₄ => ?_
  have hblock : FollowsBelow x (x.last - i₄) (Parser.routerBlock n) Indexed.routerBlock := routerBlock (by omega)
  refine (pipeline hblock true hi₄ (Nat.le_refl _) (by omega)).bind fun steps i₅ hi₅ _ => ?_
  refine (Follows.skipNewlines hi₅).bind fun _ i₆ hi₆ _ => ?_
  exact (Follows.expect _ (by simp)).bind fun _ _ _ _ => .pure _

theorem chain (hi : i ≤ x.last) (hn : x.last - i ≤ n) : Follows x 1 (Parser.chain n) Indexed.chain i := by
  unfold Indexed.chain
  rw [Parser.chain]
  refine (heading _ _).bind fun y i₁ hi₁ hlt₁ => ?_
  refine (Follows.expect _ (by simp)).bind fun _ i₂ hi₂ hlt₂ => ?_
  have hend : ∀ (body : List Expr × Option Call) (j : Nat), Follows x 0
      (Parser.endStatement >>= fun _ => Pure.pure (Statement.mk y.2 y.1 (.chain body.1 body.2)))
      (fun _ => Indexed.endStatement >>= fun _ => Pure.pure (Statement.mk y.2 y.1 (.chain body.1 body.2))) j :=
    fun _ _ => endStatement.bind fun _ _ _ _ => .pure _
  refine .ifAt (fun hwith => ?_) fun _ => ?_
  · refine (Follows.next (by simp [hwith])).bind fun _ i₃ hi₃ hlt₃ => ?_
    exact (contextBody hi₃ (by omega)).bind fun body i₄ _ _ => hend body i₄
  · have hblock : FollowsBelow x (x.last - i₂) (Parser.routerBlock n) Indexed.routerBlock := routerBlock (by omega)
    exact (pipeline hblock false hi₂ (Nat.le_refl _) (by omega)).bind fun steps i₃ _ _ => hend (steps, none) i₃

theorem fieldEnd : Follows x 0 Parser.fieldEnd Indexed.fieldEnd i := by
  unfold Indexed.fieldEnd
  rw [Parser.fieldEnd]
  refine .kind ?_
  have hnext : (x.place i).current.kind ≠ .eof →
      Follows x 0 (Parser.next >>= fun _ => Parser.skipNewlines)
        (fun m => Indexed.next >>= fun _ => Indexed.skipNewlines m) i :=
    fun hk => (Follows.next hk).bind fun _ _ hj _ => .skipNewlines hj
  cases hk : (x.place i).current.kind with
  | newline => exact hnext (by simp [hk])
  | identifier => exact .pure _
  | mark m =>
    cases m with
    | comma => exact hnext (by simp [hk])
    | rbrace => exact .pure _
    | _ => exact .fail _
  | _ => exact .fail _

theorem fields (n : Nat) (hi : i ≤ x.last) (hn : x.last - i < n) : Follows x 0 (Parser.fields n) Indexed.fields i := by
  induction n generalizing i with
  | zero => omega
  | succ n ih =>
    refine .of_succ Indexed.fields.eq_2 ?_
    rw [Parser.fields]
    refine .ifAt (fun _ => .pure _) fun _ => ?_
    refine (Follows.expectIdentifier _).bind fun name i₁ hi₁ hlt₁ => ?_
    refine (Follows.expect _ (by simp)).bind fun _ i₂ hi₂ hlt₂ => ?_
    refine (Follows.expectIdentifier _).bind fun typeName i₃ hi₃ hlt₃ => ?_
    refine fieldEnd.bind fun _ i₄ hi₄ hle₄ => ?_
    exact (ih hi₄ (by omega)).bind fun _ _ _ _ => .pure _

theorem schema (hi : i ≤ x.last) (hn : x.last - i ≤ n) : Follows x 1 (Parser.schema n) Indexed.schema i := by
  unfold Indexed.schema
  rw [Parser.schema]
  refine (heading _ _).bind fun y i₁ hi₁ hlt₁ => ?_
  refine (Follows.expect _ (by simp)).bind fun _ i₂ hi₂ hlt₂ => ?_
  refine (Follows.skipNewlines hi₂).bind fun _ i₃ hi₃ hle₃ => ?_
  refine (fields _ hi₃ (by omega)).bind fun fs i₄ hi₄ _ => ?_
  refine (Follows.expect _ (by simp)).bind fun _ i₅ hi₅ _ => ?_
  exact endStatement.bind fun _ _ _ _ => .pure _

theorem statements (n : Nat) (hi : i ≤ x.last) (hn : x.last - i < n) :
    Follows x 0 (Parser.statements n) Indexed.program i := by
  induction n generalizing i with
  | zero => omega
  | succ n ih =>
    have hmore : ∀ {P : Parser Statement} {W : Nat → Indexed Statement}, Follows x 1 P W i →
        Follows x 0 (P >>= fun s => Parser.statements n >>= fun p => Pure.pure (s :: p))
          (fun m => W m >>= fun s => Indexed.program m >>= fun p => Pure.pure (s :: p)) i := by
      intro P W hPW
      refine hPW.bind fun s i₁ hi₁ hlt₁ => ?_
      exact (ih hi₁ (by omega)).bind fun _ _ _ _ => .pure _
    refine .of_succ Indexed.program.eq_2 ?_
    rw [Parser.statements]
    refine .kind ?_
    cases hk : (x.place i).current.kind with
    | eof => exact .pure []
    | newline => exact (Follows.next (by simp [hk])).bind fun _ i₁ hi₁ hlt₁ => ih hi₁ (by omega)
    | keyword k =>
      cases k with
      | defKw => exact hmore (definition hi (by omega))
      | chainKw => exact hmore (chain hi (by omega))
      | schemaKw => exact hmore (schema hi (by omega))
      | _ => exact .fail _
    | _ => exact .fail _

end ChainCompiler.Follows
