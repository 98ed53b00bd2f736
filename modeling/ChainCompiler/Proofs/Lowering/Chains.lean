import ChainCompiler.Proofs.Lowering.Registry

/-! Chains in a module. A chain is defined step for step at its place among the definitions, and the function that runs
it invokes it once, in a context that is set up before. -/

namespace ChainCompiler

open Script (Stmt)

def Script.Expr.awaited? : Script.Expr → Option Script.Expr
  | .await value => some value
  | _ => none

/-- The name and the parameters of a function, and what its body waits for at any depth. -/
def Script.Stmt.function? : Stmt → Option (String × List String × List Script.Expr)
  | .function name params body => some (name, params, (Script.nodesOf body).filterMap Script.Expr.awaited?)
  | _ => none

namespace Module

variable {invokeMethod : String} {tools : List String} {chains : List ChainEntry}

theorem contextOf_of_memory {chain : String} (h : (chain, true) ∈ chains.map ChainEntry.shape) :
    contextOf tools chains chain = [.ident (chain ++ "_ctx")] := by
  obtain ⟨c, hc, hshape⟩ := List.mem_map.1 h
  rw [ChainEntry.shape, Prod.mk.injEq] at hshape
  exact if_pos (List.any_eq_true.2 ⟨c, hc, by simp [hshape]⟩)

theorem contextOf_of_no_memory {chain : String} (h : (chain, true) ∉ chains.map ChainEntry.shape) :
    contextOf tools chains chain = if tools.isEmpty then [] else [.ident "ctx"] := by
  refine if_neg fun hany => h ?_
  obtain ⟨c, hc, hshape⟩ := List.any_eq_true.1 hany
  rw [Bool.and_eq_true, beq_iff_eq] at hshape
  exact List.mem_map.2 ⟨c, hc, by simp [ChainEntry.shape, hshape]⟩

/-- The function that runs a chain waits for one invocation. -/
theorem function?_helper {chain : String} {context : List Script.Expr}
    (hcontext : ∀ e ∈ context, ∃ n, e = .ident n) :
    (helper invokeMethod chain context).function? = some ("run_" ++ chain, ["input"],
      [(Script.Expr.ident chain).method invokeMethod (.ident "input" :: context)]) := by
  have hnone : (Script.itemNodes context).filterMap Script.Expr.awaited? = [] := by
    induction context with
    | nil => rfl
    | cons e context ih =>
      obtain ⟨⟨n, rfl⟩, hrest⟩ := List.forall_mem_cons.1 hcontext
      exact ih hrest
  have hbody : ((Script.Expr.ident chain).method invokeMethod (.ident "input" :: context)).nodes.filterMap
      Script.Expr.awaited? = [] := by
    change ([] ++ Script.itemNodes context).filterMap Script.Expr.awaited? = []
    exact hnone
  change some ("run_" ++ chain, ["input"], _ :: (Script.Expr.nodes _ ++ _).filterMap _) = _
  rw [List.filterMap_append, hbody]
  rfl

/-- A chain runs in a context of its own, in the shared one, or in none. -/
theorem contextOf_cases (tools : List String) (chains : List ChainEntry) (chain : String) :
    contextOf tools chains chain = [.ident (contextName chain)] ∨ contextOf tools chains chain = [.ident "ctx"] ∨
      contextOf tools chains chain = [] := by
  unfold contextOf
  split
  · exact .inl rfl
  · split
    · exact .inr (.inr rfl)
    · exact .inr (.inl rfl)

theorem functions_helpersOf (invokeMethod : String) (tools : List String) (chains : List ChainEntry) :
    (helpersOf invokeMethod tools chains).filterMap Stmt.function? = (chains.map ChainEntry.name).map fun x =>
      ("run_" ++ x, ["input"],
        [(Script.Expr.ident x).method invokeMethod (.ident "input" :: contextOf tools chains x)]) := by
  have hfunction : ∀ x, (helper invokeMethod x (contextOf tools chains x)).function? = some ("run_" ++ x, ["input"],
      [(Script.Expr.ident x).method invokeMethod (.ident "input" :: contextOf tools chains x)]) := by
    intro x
    apply function?_helper
    rcases contextOf_cases tools chains x with h | h | h <;> simp [h]
  unfold helpersOf
  split
  · next hempty =>
    rw [List.isEmpty_iff.1 hempty]
    rfl
  · rw [List.filterMap_cons_none rfl, filterMap_separated rfl, List.flatMap_map, List.map_map]
    refine Eq.trans ?_ List.map_eq_flatMap.symm
    congr 1
    funext c
    exact List.filterMap_cons_some (hfunction c.name)

/-- The context that a chain runs in is set up. -/
theorem const_of_contextOf {chain : String} {e : Script.Expr} (h : e ∈ contextOf tools chains chain) :
    ∃ n, e = .ident n ∧ Stmt.const n (.new "ChainContext" []) ∈ contextsOf tools chains := by
  by_cases hmemory : (chain, true) ∈ chains.map ChainEntry.shape
  · rw [contextOf_of_memory hmemory, List.mem_singleton] at h
    obtain ⟨c, hc, hshape⟩ := List.mem_map.1 hmemory
    rw [ChainEntry.shape, Prod.mk.injEq] at hshape
    obtain ⟨memory, hsome⟩ := Option.isSome_iff_exists.1 hshape.2
    refine ⟨chain ++ "_ctx", h, (mem_contextsOf (by simp)).2 (.inr ⟨c, hc, memory, hsome, ?_⟩)⟩
    rw [hshape.1]
    exact List.mem_append_left _ (List.mem_cons_self ..)
  · rw [contextOf_of_no_memory hmemory] at h
    split at h
    · cases h
    · next htools =>
      refine ⟨"ctx", List.mem_singleton.1 h, (mem_contextsOf_shared (.inl rfl)).2 fun hnil => ?_⟩
      exact htools (List.isEmpty_iff.2 hnil)

/-- A tool is bound somewhere in the definitions or in the memory configurations. -/
def BindsTool (m : Module) : Prop :=
  ∃ tool, ∃ target : Script.Expr,
    target.method "bind_tool" [.ident tool] ∈ Script.nodesOf (m.definitions ++ m.contexts)

/-- The context that a chain of a program is run in: its own if a chain of its name has a memory, else the shared one if
a tool is bound anywhere, else none. -/
inductive RunsIn (m : Module) (p : Program) (chain : String) : List Script.Expr → Prop
  | own : (chain, true) ∈ p.chains → RunsIn m p chain [.ident (chain ++ "_ctx")]
  | shared : (chain, true) ∉ p.chains → m.BindsTool → RunsIn m p chain [.ident "ctx"]
  | alone : (chain, true) ∉ p.chains → ¬m.BindsTool → RunsIn m p chain []

def block (debug : Bool) (x : Statement × Lowered) : List Stmt :=
  (if debug then [announcement x.1] else []) ++ x.2.definitions

section Assembled

variable {options : Options} {p : Program} {ls : List Lowered} {t : Scope}
  (hrun : (Lower.program p).run (Scope.initial p) = (.ok ls, t))
include hrun

theorem bindsTool_assemble : (assemble options p ls t).BindsTool ↔ t.tools.isEmpty = false := by
  unfold BindsTool
  simp only [← mem_boundTools_iff (Lower.length_of_program hrun)]
  rw [Lower.tools_of_program hrun, List.isEmpty_eq_false_iff_exists_mem]
  simp only [List.mem_eraseDups]

theorem runsIn_contextOf (chain : String) :
    RunsIn (assemble options p ls t) p chain (contextOf t.tools (Lowered.chains ls) chain) := by
  have hshapes := Lower.shapes_of_program hrun
  by_cases hmemory : (chain, true) ∈ p.chains
  · rw [contextOf_of_memory (by rwa [hshapes])]
    exact .own hmemory
  · rw [contextOf_of_no_memory (by rwa [hshapes])]
    cases htools : t.tools.isEmpty with
    | true => exact .alone hmemory fun hbound => absurd ((bindsTool_assemble hrun).1 hbound) (by simp [htools])
    | false => exact .shared hmemory ((bindsTool_assemble hrun).2 htools)

theorem functions_assemble :
    (assemble options p ls t).helpers.filterMap Stmt.function? = (p.chains.map Prod.fst).map fun x =>
      ("run_" ++ x, ["input"], [(Script.Expr.ident x).method options.invokeMethod
        (.ident "input" :: contextOf t.tools (Lowered.chains ls) x)]) := by
  rw [← Lower.chainNames_of_program hrun]
  exact functions_helpersOf options.invokeMethod t.tools (Lowered.chains ls)

end Assembled

/-- The block of a chain stands at the chain's place, and is its constant with a call for each step. -/
theorem block_of_chain (debug : Bool) {front back : Program} {st : Statement} {ls : List Lowered} {s t : Scope}
    (hrun : (Lower.program (front ++ st :: back)).run s = (.ok ls, t)) {steps : List Expr} {memory : Option Call}
    (hst : st.declaration = .chain steps memory) :
    ∃ ls₁ u es v, (Lower.program front).run s = (.ok ls₁, u) ∧
      RunInOrder (steps.map Expr.lowerStep) ((u.entered st).note "Chain") es v ∧
      (((front ++ st :: back).zip ls).map (block debug))[front.length]? =
        some ((if debug then [announcement st] else []) ++
          .const st.name (.new "Chain" [.str st.name]) :: es.map (addingNode st.name)) := by
  obtain ⟨ls₁, l, ls₂, u, v, hfront, hl, rfl, hlength⟩ := Lower.program_split hrun
  obtain ⟨es, memory', w, hes, -, rfl⟩ := Lower.statement_chain hst hl
  refine ⟨ls₁, u, es, w, hfront, hes, ?_⟩
  rw [List.zip_append hlength.symm, List.zip_cons_cons, List.map_append, List.map_cons,
    List.getElem?_append_right (by simp [hlength])]
  simp [hlength, block]

end Module

/-- Chains are lowered step for step, and each is run in a context that is there. The definitions are blocks, one for
each statement in source order; the block of a chain is its constant and a call for each of its steps, lowered in the
scope that the statements and the steps before it leave. There is one function for each chain, in source order, that
waits for one invocation of the chain; and the context it is invoked in is set up between the definitions and the
functions. -/
theorem generate_chains {options : Options} {name code : String} {p : Program}
    (h : (generate options name p).1 = .ok code) :
    ∃ (m : Module) (blocks : List (List Stmt)) (context : String → List Script.Expr),
      (Module.ofProgram options p).1 = .ok m ∧
      code = Module.header name ++ Module.importLine options m.classes ++ Module.sectionText m.definitions ++
        Module.sectionText m.contexts ++ Module.sectionText m.helpers ∧
      m.definitions = Module.separated blocks ∧ blocks.length = p.length ∧
      (∀ front st back steps memory, p = front ++ st :: back → st.declaration = .chain steps memory →
        ∃ ls s es t, (Lower.program front).run (Scope.initial p) = (.ok ls, s) ∧
          RunInOrder (steps.map Expr.lowerStep) ((s.entered st).note "Chain") es t ∧ es.length = steps.length ∧
          blocks[front.length]? = some ((if options.debug then [Module.announcement st] else []) ++
            .const st.name (.new "Chain" [.str st.name]) :: es.map (addingNode st.name))) ∧
      m.helpers.filterMap Stmt.function? = (p.chains.map Prod.fst).map (fun x => ("run_" ++ x, ["input"],
        [(Script.Expr.ident x).method options.invokeMethod (.ident "input" :: context x)])) ∧
      ∀ x ∈ p.chains.map Prod.fst, m.RunsIn p x (context x) ∧
        ∀ e ∈ context x, ∃ n, e = .ident n ∧ Stmt.const n (.new "ChainContext" []) ∈ m.contexts := by
  obtain ⟨m, hm, rfl⟩ := generate_eq_ok h
  obtain ⟨ls, t, hrun, rfl⟩ := Module.ofProgram_eq_ok hm
  refine ⟨_, (p.zip ls).map (Module.block options.debug), Module.contextOf t.tools (Lowered.chains ls), hm, rfl, rfl,
    ?_, ?_, Module.functions_assemble hrun, ?_⟩
  · rw [List.length_map, List.length_zip, Lower.length_of_program hrun, Nat.min_self]
  · rintro front st back steps memory rfl hst
    obtain ⟨ls₁, s, es, u, hfront, hes, hblock⟩ := Module.block_of_chain options.debug hrun hst
    exact ⟨ls₁, s, es, u, hfront, hes, hes.length_eq.trans (List.length_map _), hblock⟩
  · intro x _
    exact ⟨Module.runsIn_contextOf hrun x, fun e he => Module.const_of_contextOf he⟩

theorem generate_chains_toolChain :
    ∃ code m context, (generate .standard "c" toolChain).1 = .ok code ∧
      (Module.ofProgram .standard toolChain).1 = .ok m ∧
      m.helpers.filterMap Stmt.function? = [("run_c", ["input"],
        [(Script.Expr.ident "c").method "async_invoke" (.ident "input" :: context)])] ∧
      m.RunsIn toolChain "c" context := by
  have h : (generate .standard "c" toolChain).1 = .ok _ := rfl
  obtain ⟨m, blocks, context, hm, -, -, -, -, hfunctions, hcontext⟩ := generate_chains h
  exact ⟨_, m, context "c", h, hm, hfunctions, (hcontext "c" (by decide)).1⟩

end ChainCompiler
