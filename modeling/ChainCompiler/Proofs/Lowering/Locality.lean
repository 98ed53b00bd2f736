import ChainCompiler.Compilation
import ChainCompiler.Proofs.Lowering.Parallel

/-! A program is lowered statement by statement. Whether a statement fails, and why, is decided by it alone, so a
program fails as its first failing statement does. Its definitions go before those of the statements after it, which
change none of them. -/

namespace ChainCompiler

namespace Lower

variable {same : Prop}

theorem enter_parallel (s : Statement) : Parallel same (enter s) (enter s) :=
  fun _ _ hst => .ok fun hs => ⟨rfl, rfl, (hst hs).2⟩

theorem definition_parallel (name : String) (e : Expr) : Parallel same (definition name e) (definition name e) := by
  rw [definition_eq]
  unfold definitionValue
  split
  · exact ((Parallel.reference _ _).map _).map _
  · exact (e.steady same).map _

theorem addingNodes_parallel (name : String) (es : List Expr) :
    Parallel same (addingNodes name es) (addingNodes name es) := by
  induction es with
  | nil => exact .pure fun _ => rfl
  | cons e es ih =>
    refine (e.steady same).lowerStep.bind fun a b hab => ?_
    refine ih.bind fun as bs habs => .pure fun hs => ?_
    rw [hab hs, habs hs]

theorem memory_parallel (context : Call) : Parallel same (memory context) (memory context) := by
  have hconfig := Operand.config_parallel (operands_steady fun a (_ : a ∈ context.args) => a.value.steady same)
  unfold memory
  split
  · exact (Parallel.fail _).bind fun _ _ _ => hconfig.bind fun _ _ hab =>
      (Parallel.need _).bind fun _ _ _ => .pure hab
  · exact hconfig.bind fun _ _ hab => (Parallel.need _).bind fun _ _ _ => .pure hab

theorem chain_parallel (name : String) (pipeline : List Expr) (context : Option Call) :
    Parallel same (chain name pipeline context) (chain name pipeline context) := by
  have hmemory : Parallel same (context.mapM memory) (context.mapM memory) := by
    rcases context with _ | context
    · exact .pure fun _ => rfl
    · exact (memory_parallel context).map _
  refine (Parallel.need _).bind fun _ _ _ => (addingNodes_parallel name pipeline).bind fun a b hab => ?_
  refine hmemory.bind fun a' b' hab' => .pure fun hs => ?_
  rw [hab hs, hab' hs]

theorem schema_parallel (name : String) (fields : List (String × String)) :
    Parallel same (schema name fields) (schema name fields) := by
  unfold schema
  split
  · exact .fail _
  · exact .pure fun _ => rfl

theorem statement_parallel (same : Prop) (s : Statement) : Parallel same (statement s) (statement s) := by
  refine (enter_parallel s).bind fun _ _ _ => ?_
  split
  · exact (definition_parallel _ _).bind fun a b hab => .pure fun hs => by rw [hab hs]
  · exact chain_parallel _ _ _
  · exact schema_parallel _ _

end Lower

def Statement.failure? (st : Statement) : Option LoweringError :=
  match (Lower.statement st (Scope.initial [st])).1 with
  | .error cause => some ⟨st, cause⟩
  | .ok _ => none

namespace Lower

variable {st : Statement} {p q : Program} {s t u : Scope} {ls : List Lowered}

theorem failure?_of_error {cause : Cause} (h : statement st s = (.error cause, t)) :
    st.failure? = some ⟨st, cause⟩ := by
  have hp := statement_parallel False st s (Scope.initial [st]) False.elim
  rw [h] at hp
  unfold Statement.failure?
  generalize statement st (Scope.initial [st]) = o at hp ⊢
  cases hp
  rfl

theorem failure?_of_ok {l : Lowered} (h : statement st s = (.ok l, t)) : st.failure? = none := by
  have hp := statement_parallel False st s (Scope.initial [st]) False.elim
  rw [h] at hp
  unfold Statement.failure?
  generalize statement st (Scope.initial [st]) = o at hp ⊢
  cases hp
  rfl

/-- A statement is lowered to the same code in scopes that agree. -/
theorem statement_of_agree {l : Lowered} (h : statement st s = (.ok l, t)) {s' : Scope} (hs : s.Agree s') :
    ∃ t', statement st s' = (.ok l, t') ∧ t.Agree t' := by
  have hp := statement_parallel True st s s' fun _ => hs
  rw [h] at hp
  generalize statement st s' = o at hp ⊢
  cases hp with
  | ok hab =>
    obtain ⟨rfl, ht⟩ := hab trivial
    exact ⟨_, rfl, ht⟩

/-- A program fails as its first failing statement does. -/
theorem program_error_iff (s : Scope) {e : LoweringError} :
    ((program p).run s).1 = .error e ↔ p.findSome? Statement.failure? = some e := by
  induction p generalizing s with
  | nil => exact ⟨nofun, nofun⟩
  | cons st p ih =>
    rcases h : statement st s with ⟨cause | l, t⟩
    · rw [program_cons_of_error p h, List.findSome?_cons, failure?_of_error h]
      simp
    · rw [program_cons_of_ok p h, List.findSome?_cons, failure?_of_ok h, ← ih t]
      cases ((program p).run t).1 <;> simp [Except.map]

/-- The first statements of a program are lowered as they are without the others, also from another scope that
agrees with the scope of the run. -/
theorem program_append (h : (program (p ++ q)).run s = (.ok ls, u)) (s' : Scope) (hs : s.Agree s') :
    ∃ front back t, (program p).run s' = (.ok front, t) ∧ ls = front ++ back := by
  induction p generalizing s s' ls with
  | nil => exact ⟨[], ls, s', rfl, rfl⟩
  | cons st p ih =>
    obtain ⟨l, ls', t, hst, hp, rfl⟩ := program_cons_eq_ok h
    obtain ⟨t', hst', ht⟩ := statement_of_agree hst hs
    obtain ⟨front, back, u', hfront, rfl⟩ := ih hp t' ht
    refine ⟨l :: front, back, u', ?_, rfl⟩
    rw [program_cons_of_ok p hst', hfront]
    rfl

end Lower

namespace Module

open Script (Stmt)

theorem separated_prefix (bs cs : List (List Stmt)) : separated bs <+: separated (bs ++ cs) := by
  induction bs with
  | nil => exact List.nil_prefix
  | cons b bs ih =>
    cases bs with
    | nil =>
      cases cs with
      | nil => exact List.prefix_rfl
      | cons c cs => exact List.prefix_append b _
    | cons b' bs => exact (List.prefix_append_right_inj b).2 (List.cons_prefix_cons.2 ⟨rfl, ih⟩)

theorem ofProgram_error_iff (options : Options) {p : Program} {e : LoweringError} :
    (ofProgram options p).1 = .error e ↔ p.findSome? Statement.failure? = some e := by
  rw [← Lower.program_error_iff (Scope.initial p)]
  unfold ofProgram
  rcases (Lower.program p).run (Scope.initial p) with ⟨e' | ls, t⟩ <;> simp [Except.map]

/-- The definitions of a program go before those of statements appended to it. -/
theorem definitions_prefix {options : Options} {p q : Program} {m : Module}
    (h : (ofProgram options (p ++ q)).1 = .ok m) :
    ∃ m', (ofProgram options p).1 = .ok m' ∧ m'.definitions <+: m.definitions := by
  obtain ⟨ls, t, hp, rfl⟩ := ofProgram_eq_ok h
  obtain ⟨front, back, u, hfront, rfl⟩ := Lower.program_append hp (Scope.initial p) ⟨rfl, rfl⟩
  refine ⟨assemble options p front u, by rw [ofProgram, hfront]; rfl, ?_⟩
  have hzip : (p ++ q).zip (front ++ back) = p.zip front ++ q.zip back :=
    List.zip_append (Lower.length_of_program hfront).symm
  unfold assemble definitionsOf
  rw [hzip, List.map_append]
  exact separated_prefix _ _

end Module

theorem generate_error_iff (options : Options) (name : String) {p : Program} {e : LoweringError} :
    (generate options name p).1 = .error e ↔ p.findSome? Statement.failure? = some e := by
  rw [← Module.ofProgram_error_iff options]
  unfold generate
  rcases Module.ofProgram options p with ⟨e' | m, ws⟩ <;> simp [Except.map]

theorem generate_ok_iff {options : Options} {name : String} {p : Program} :
    (∃ text, (generate options name p).1 = .ok text) ↔ ∀ s ∈ p, s.failure? = none := by
  rw [← List.findSome?_eq_none_iff, Option.eq_none_iff_forall_ne_some]
  simp only [ne_eq, ← generate_error_iff options name]
  cases (generate options name p).1 <;> simp

/-- Lowering is local. A program is generated when each of its statements is on its own; when it fails, it fails as the
first failing statement does on its own; and appended statements leave the definitions before them as they are. -/
theorem generate_append (options : Options) (name : String) (p q : Program) :
    ((∃ text, (generate options name (p ++ q)).1 = .ok text) ↔
      ∀ s ∈ p ++ q, ∃ text, (generate options name [s]).1 = .ok text) ∧
    (∀ e, (generate options name (p ++ q)).1 = .error e →
      ∃ front s back, p ++ q = front ++ s :: back ∧
        (∀ s' ∈ front, ∃ text, (generate options name [s']).1 = .ok text) ∧
        (generate options name [s]).1 = .error e) ∧
    ∀ m, (Module.ofProgram options (p ++ q)).1 = .ok m →
      ∃ m', (Module.ofProgram options p).1 = .ok m' ∧ m'.definitions <+: m.definitions := by
  refine ⟨?_, fun e he => ?_, fun m hm => Module.definitions_prefix hm⟩
  · simp only [generate_ok_iff, List.forall_mem_singleton]
  · rw [generate_error_iff, List.findSome?_eq_some_iff] at he
    obtain ⟨front, s, back, happend, hs, hfront⟩ := he
    refine ⟨front, s, back, happend, fun s' hs' => ?_, ?_⟩
    · rw [generate_ok_iff, List.forall_mem_singleton]
      exact hfront s' hs'
    · rw [generate_error_iff, List.findSome?_cons, hs]

end ChainCompiler
