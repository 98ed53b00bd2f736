import ChainCompiler.Proofs.Lowering.Bound

/-! What each statement of a program contributes to its module, and in which scope it is lowered. A chain contributes
its constant and a call for each step, where each step is lowered in the scope that the steps before it leave. -/

namespace ChainCompiler

/-- Each of the steps, run from the scope that the one before it leaves, gives the expression at its place. -/
inductive RunInOrder : List (Lower Script.Expr) → Scope → List Script.Expr → Scope → Prop
  | nil {s} : RunInOrder [] s [] s
  | cons {s t u x xs e es} : x s = (.ok e, t) → RunInOrder xs t es u → RunInOrder (x :: xs) s (e :: es) u

theorem RunInOrder.length_eq {xs : List (Lower Script.Expr)} {s t : Scope} {es : List Script.Expr}
    (h : RunInOrder xs s es t) : es.length = xs.length := by
  induction h with
  | nil => rfl
  | cons _ _ ih => rw [List.length_cons, List.length_cons, ih]

/-- The scope in which a statement is lowered, given the one that the statements before it leave. -/
def Scope.entered (s : Scope) (st : Statement) : Scope := { s with owner := st.name, line := st.line }

def addingNode (chain : String) (node : Script.Expr) : Script.Stmt :=
  .expr ((Script.Expr.ident chain).method "addNode" [node])

namespace Lower

variable {st : Statement} {s t : Scope} {l : Lowered}

theorem addingNodes_eq_ok {name : String} {steps : List Expr} {ss : List Script.Stmt}
    (h : addingNodes name steps s = (.ok ss, t)) :
    ∃ es, RunInOrder (steps.map Expr.lowerStep) s es t ∧ ss = es.map (addingNode name) := by
  induction steps generalizing s ss with
  | nil =>
    cases h
    exact ⟨[], .nil, rfl⟩
  | cons e steps ih =>
    obtain ⟨node, u, he, h⟩ := bind_eq_ok.1 h
    obtain ⟨rest, v, hrest, h⟩ := bind_eq_ok.1 h
    cases h
    obtain ⟨es, hes, rfl⟩ := ih hrest
    exact ⟨node :: es, .cons he hes, rfl⟩

/-- The run of a definition is the run of its value. -/
theorem definitionValue_of_statement {value : Expr} (hst : st.declaration = .definition value)
    (h : statement st s = (.ok l, t)) :
    ∃ b, definitionValue value (s.entered st) = (.ok b, t) ∧ l = ⟨defining st.name b, none⟩ := by
  rw [statement, bind_of_ok _ (show enter st s = (.ok (), s.entered st) from rfl), hst] at h
  obtain ⟨ss, u, hss, h⟩ := bind_eq_ok.1 h
  cases h
  rw [definition_eq] at hss
  obtain ⟨b, hb, rfl⟩ := map_eq_ok.1 hss
  exact ⟨b, hb, rfl⟩

/-- The run of a chain is the run of its steps, and then of its memory if it has one. -/
theorem chain_of_statement {steps : List Expr} {context : Option Call} (hst : st.declaration = .chain steps context)
    (h : statement st s = (.ok l, t)) :
    ∃ es config u, RunInOrder (steps.map Expr.lowerStep) ((s.entered st).note "Chain") es u ∧
      context.mapM memory u = (.ok config, t) ∧
      l = ⟨.const st.name (.new "Chain" [.str st.name]) :: es.map (addingNode st.name), some ⟨st.name, config⟩⟩ := by
  rw [statement, bind_of_ok _ (show enter st s = (.ok (), s.entered st) from rfl), hst] at h
  dsimp only at h
  rw [chain, bind_of_ok _ (need_apply _ _)] at h
  obtain ⟨ss, u, hnodes, h⟩ := bind_eq_ok.1 h
  obtain ⟨config, w, hconfig, h⟩ := bind_eq_ok.1 h
  cases h
  obtain ⟨es, hes, rfl⟩ := addingNodes_eq_ok hnodes
  exact ⟨es, config, u, hes, hconfig, rfl⟩

theorem mapM_memory_some {context : Call} {config : Option Script.Expr}
    (h : (some context).mapM memory s = (.ok config, t)) :
    ∃ v, config = some v ∧ memory context s = (.ok v, t) := by
  obtain ⟨v, hv, rfl⟩ := map_eq_ok.1 h
  exact ⟨v, rfl, hv⟩

theorem statement_chain {steps : List Expr} {context : Option Call} (hst : st.declaration = .chain steps context)
    (h : statement st s = (.ok l, t)) :
    ∃ es memory u, RunInOrder (steps.map Expr.lowerStep) ((s.entered st).note "Chain") es u ∧
      memory.isSome = context.isSome ∧
      l = ⟨.const st.name (.new "Chain" [.str st.name]) :: es.map (addingNode st.name), some ⟨st.name, memory⟩⟩ := by
  obtain ⟨es, memory, u, hes, hmemory, rfl⟩ := chain_of_statement hst h
  refine ⟨es, memory, u, hes, ?_, rfl⟩
  rcases context with _ | context
  · cases hmemory
    rfl
  · obtain ⟨m, rfl, -⟩ := mapM_memory_some hmemory
    rfl

theorem statement_schema {fields : List (String × String)} (hst : st.declaration = .schema fields)
    (h : statement st s = (.ok l, t)) :
    l = ⟨[.const st.name (Component.schemaOf fields)], none⟩ ∧ t = s.entered st := by
  rw [statement, bind_of_ok _ (show enter st s = (.ok (), s.entered st) from rfl), hst] at h
  dsimp only at h
  unfold schema at h
  cases hrepeated : repeatedField? fields [] with
  | some f =>
    rw [hrepeated] at h
    exact absurd h fail_ne_ok
  | none =>
    rw [hrepeated] at h
    cases h
    exact ⟨rfl, rfl⟩

end Lower

def Statement.chain? (st : Statement) : Option (String × Bool) :=
  match st.declaration with
  | .chain _ context => some (st.name, context.isSome)
  | _ => none

/-- The chains of a program in source order, each with whether it has a memory. -/
def Program.chains (p : Program) : List (String × Bool) := p.filterMap Statement.chain?

def ChainEntry.shape (c : ChainEntry) : String × Bool := (c.name, c.memory.isSome)

def Lowered.chains (ls : List Lowered) : List ChainEntry := ls.filterMap (·.chain)

namespace Lower

variable {p front back : Program} {st : Statement} {s t : Scope} {l : Lowered} {ls : List Lowered}

theorem shape_of_statement (h : statement st s = (.ok l, t)) : l.chain.map ChainEntry.shape = st.chain? := by
  unfold Statement.chain?
  split
  · next steps context hst =>
    obtain ⟨es, memory, u, -, hmemory, rfl⟩ := statement_chain hst h
    simp [ChainEntry.shape, hmemory]
  · next hst =>
    cases hdecl : st.declaration with
    | definition value =>
      obtain ⟨b, -, rfl⟩ := definitionValue_of_statement hdecl h
      rfl
    | chain steps context => exact absurd hdecl (hst steps context)
    | schema fields =>
      rw [(statement_schema hdecl h).1]
      rfl

/-- The chains that a program's statements contribute are its chains. -/
theorem shapes_of_program (h : (program p).run s = (.ok ls, t)) :
    (Lowered.chains ls).map ChainEntry.shape = p.chains := by
  induction p generalizing s ls with
  | nil =>
    cases h
    rfl
  | cons st p ih =>
    obtain ⟨l, ls', u, hst, hp, rfl⟩ := program_cons_eq_ok h
    have hl := shape_of_statement hst
    have hls := ih hp
    unfold Lowered.chains Program.chains at *
    rw [List.filterMap_cons, List.filterMap_cons, ← hl]
    cases l.chain with
    | none => exact hls
    | some c => exact congrArg (_ :: ·) hls

theorem chainNames_of_program (h : (program p).run s = (.ok ls, t)) :
    (Lowered.chains ls).map ChainEntry.name = p.chains.map Prod.fst := by
  rw [← shapes_of_program h, List.map_map]
  rfl

/-- The entry of a chain with a memory is among those that its program contributes. -/
theorem exists_chain_of_memory (h : (program p).run s = (.ok ls, t)) (hst : st ∈ p) {steps : List Expr}
    {context : Call} (hchain : st.declaration = .chain steps (some context)) :
    ∃ c ∈ Lowered.chains ls, c.name = st.name ∧ c.memory.isSome := by
  have hshape : (st.name, true) ∈ p.chains := List.mem_filterMap.2 ⟨st, hst, by simp [Statement.chain?, hchain]⟩
  rw [← shapes_of_program h] at hshape
  obtain ⟨c, hc, hshape⟩ := List.mem_map.1 hshape
  rw [ChainEntry.shape, Prod.mk.injEq] at hshape
  exact ⟨c, hc, hshape⟩

/-- The run of a program passes through the scope that the statements before one of them leave. -/
theorem program_split (h : (program (front ++ st :: back)).run s = (.ok ls, t)) :
    ∃ ls₁ l ls₂ u v, (program front).run s = (.ok ls₁, u) ∧ statement st u = (.ok l, v) ∧
      ls = ls₁ ++ l :: ls₂ ∧ ls₁.length = front.length := by
  induction front generalizing s ls with
  | nil =>
    obtain ⟨l, ls', u, hst, -, rfl⟩ := program_cons_eq_ok h
    exact ⟨[], l, ls', s, u, rfl, hst, rfl, rfl⟩
  | cons st' front ih =>
    obtain ⟨l', ls', u, hst', hrest, rfl⟩ := program_cons_eq_ok h
    obtain ⟨ls₁, l, ls₂, v, w, hfront, hst, rfl, hlength⟩ := ih hrest
    refine ⟨l' :: ls₁, l, ls₂, v, w, ?_, hst, rfl, congrArg (· + 1) hlength⟩
    rw [program_cons_of_ok front hst', hfront]
    rfl

end Lower

namespace Module

/-- A collector that finds nothing in a blank line goes through blocks one by one. -/
theorem filterMap_separated {α : Type} {f : Script.Stmt → Option α} (hblank : f .blank = none)
    (bs : List (List Script.Stmt)) : (separated bs).filterMap f = bs.flatMap (·.filterMap f) := by
  induction bs with
  | nil => rfl
  | cons b bs ih =>
    cases bs with
    | nil => simp [separated]
    | cons b' bs =>
      rw [List.flatMap_cons, ← ih, separated, List.filterMap_append, List.filterMap_cons_none hblank]
      simp

theorem mem_separated_iff {bs : List (List Script.Stmt)} {d : Script.Stmt} (hd : d ≠ .blank) :
    d ∈ separated bs ↔ ∃ b ∈ bs, d ∈ b := by
  induction bs with
  | nil => simp [separated]
  | cons b bs ih =>
    cases bs with
    | nil => simp [separated]
    | cons b' bs =>
      rw [separated, List.mem_append, List.mem_cons, ih]
      · simp [hd]
      · simp

theorem forall_separated {P : Script.Stmt → Prop} (hblank : P .blank) {bs : List (List Script.Stmt)}
    (h : ∀ b ∈ bs, ∀ d ∈ b, P d) : ∀ d ∈ separated bs, P d := by
  intro d hd
  by_cases hd' : d = .blank
  · rw [hd']
    exact hblank
  · obtain ⟨b, hb, hd⟩ := (mem_separated_iff hd').1 hd
    exact h b hb d hd

end Module

end ChainCompiler
