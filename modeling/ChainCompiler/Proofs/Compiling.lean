import ChainCompiler.Proofs.Lowering.Locality

/-! When a source is not compiled. The options and the name it is given have no part in that. -/

namespace ChainCompiler

theorem generate_eq_error {options : Options} {name : String} {p : Program} {e : LoweringError}
    (h : (generate options name p).1 = .error e) :
    ∃ scope, (Lower.program p).run (Scope.initial p) = (.error e, scope) := by
  rw [generate_error_iff, ← Lower.program_error_iff (Scope.initial p)] at h
  exact ⟨_, Prod.ext h rfl⟩

/-- A source that is not compiled is no program, or its program has no lowering. -/
theorem compile_eq_error {options : Options} {name source : String} {e : CompileError}
    (h : (compile options name source).1 = .error e) :
    (∃ e', Program.ofSource source = .error e' ∧ e = .source e') ∨
      ∃ p e', Program.ofSource source = .ok p ∧ (generate options name p).1 = .error e' ∧ e = .lowering e' := by
  unfold compile at h
  cases hp : Program.ofSource source with
  | error e' =>
    rw [hp] at h
    cases h
    exact .inl ⟨e', rfl, rfl⟩
  | ok p =>
    rw [hp] at h
    rcases hg : generate options name p with ⟨e' | text, ws⟩
    · simp only [hg] at h
      cases h
      exact .inr ⟨p, e', rfl, by rw [hg], rfl⟩
    · simp only [hg] at h
      cases h

/-- The text cannot be scanned, parsed or lowered. -/
inductive Uncompilable (text : String) : Prop
  | noProgram {e} : Program.ofSource text = .error e → Uncompilable text
  | noLowering {p e scope} :
      Program.ofSource text = .ok p → (Lower.program p).run (Scope.initial p) = (.error e, scope) → Uncompilable text

theorem uncompilable_iff (options : Options) (name text : String) :
    Uncompilable text ↔ ∃ e, (compile options name text).1 = .error e := by
  constructor
  · intro h
    cases h with
    | @noProgram e hp => exact ⟨.source e, by rw [compile, hp]⟩
    | @noLowering p e scope hp hrun =>
      have hgenerate : (generate options name p).1 = .error e := by
        rw [generate_error_iff, ← Lower.program_error_iff (Scope.initial p), hrun]
      refine ⟨.lowering e, ?_⟩
      rw [compile, hp]
      simp only [hgenerate]
      rfl
  · rintro ⟨e, h⟩
    rcases compile_eq_error h with ⟨e', hp, -⟩ | ⟨p, e', hp, hgenerate, -⟩
    · exact .noProgram hp
    · obtain ⟨scope, hrun⟩ := generate_eq_error hgenerate
      exact .noLowering hp hrun

end ChainCompiler
