import ChainCompiler.Proofs.Lowering.Contribution
import ChainCompiler.Proofs.Lowering.Imports
import ChainCompiler.Proofs.Lowering.Registration

/-! The registry of a module holds the tools that its code binds, once each and in the order of their first bindings.
The registry and the shared context are there when a tool is bound, and then each memory has the registry too. -/

namespace ChainCompiler

open Script (Stmt exprsOf itemTools)

def Script.Stmt.registeredTool? : Stmt → Option String
  | .expr (.call (.member (.ident map) method) [.member (.ident owner) property, .ident tool]) =>
    if map = "toolRegistry" ∧ method = "set" ∧ property = "name" ∧ owner = tool then some tool else none
  | _ => none

def registeredTools (ss : List Stmt) : List String := ss.filterMap Stmt.registeredTool?

theorem nodup_foldl_addTool {tools : List String} (h : tools.Nodup) (more : List String) :
    (more.foldl addTool tools).Nodup := by
  induction more generalizing tools with
  | nil => exact h
  | cons tool more ih =>
    apply ih
    rw [addTool]
    split
    · exact h
    · next hnew =>
      refine List.nodup_append.2 ⟨h, by simp, fun a ha b hb hab => hnew ?_⟩
      rw [List.mem_singleton.1 hb] at hab
      exact List.contains_iff_mem.2 (hab ▸ ha)

theorem Lower.tools_nodup_of_program {p : Program} {t : Scope} {ls : List Lowered}
    (hrun : (program p).run (Scope.initial p) = (.ok ls, t)) : t.tools.Nodup := by
  have hregisters : t.tools = (ls.flatMap Lowered.boundTools).foldl addTool [] := program_registers hrun
  rw [hregisters]
  exact nodup_foldl_addTool List.nodup_nil _

namespace Module

variable {tools : List String} {chains : List ChainEntry}

theorem registeredTools_registry (tools : List String) : registeredTools (registry tools) = tools := by
  have hentries : registeredTools (tools.map fun t =>
      .expr ((Script.Expr.ident "toolRegistry").method "set" [.member (.ident t) "name", .ident t])) = tools := by
    induction tools with
    | nil => rfl
    | cons tool tools ih =>
      rw [List.map_cons, registeredTools, List.filterMap_cons_some, ← registeredTools, ih]
      simp [Script.Expr.method, Stmt.registeredTool?]
  unfold registry
  split
  · next hempty => exact (List.isEmpty_iff.1 hempty).symm
  · unfold registeredTools at *
    rw [List.filterMap_append, List.filterMap_append, hentries]
    exact List.append_nil tools

theorem registeredTools_memoryContext (tools : List String) (chain : String) (memory : Script.Expr) :
    registeredTools (memoryContext tools chain memory) = [] := by
  unfold memoryContext
  split <;> rfl

theorem registeredTools_contextsOf (tools : List String) (chains : List ChainEntry) :
    registeredTools (contextsOf tools chains) = tools := by
  have hmemories : ∀ b ∈ chains.filterMap fun c => c.memory.map (memoryContext tools c.name),
      registeredTools b = [] := by
    intro b hb
    obtain ⟨c, -, hb⟩ := List.mem_filterMap.1 hb
    obtain ⟨memory, -, rfl⟩ := Option.map_eq_some_iff.1 hb
    exact registeredTools_memoryContext tools c.name memory
  have hregistry : (if tools.isEmpty then [] else [registry tools]).flatMap registeredTools = tools := by
    split
    · next hempty => exact (List.isEmpty_iff.1 hempty).symm
    · rw [List.flatMap_singleton, registeredTools_registry]
  have hseparated := fun bs => filterMap_separated (f := Stmt.registeredTool?) rfl bs
  unfold contextsOf
  refine (hseparated _).trans ?_
  rw [List.flatMap_append]
  change List.flatMap registeredTools _ ++ List.flatMap registeredTools _ = _
  rw [hregistry, List.flatMap_eq_nil_iff.2 hmemories, List.append_nil]

/-- The statements of the contexts: those of the registry, and those of each chain with a memory. -/
theorem mem_contextsOf {d : Stmt} (hd : d ≠ .blank) :
    d ∈ contextsOf tools chains ↔
      d ∈ registry tools ∨ ∃ c ∈ chains, ∃ memory, c.memory = some memory ∧ d ∈ memoryContext tools c.name memory := by
  unfold contextsOf
  dsimp only
  rw [mem_separated_iff hd]
  simp only [List.mem_append, or_and_right, exists_or, List.mem_filterMap, Option.map_eq_some_iff]
  refine or_congr ?_ ?_
  · cases htools : tools.isEmpty <;> simp [registry, htools]
  · constructor
    · rintro ⟨b, ⟨c, hc, memory, hmemory, rfl⟩, hd⟩
      exact ⟨c, hc, memory, hmemory, hd⟩
    · rintro ⟨c, hc, memory, hmemory, hd⟩
      exact ⟨_, ⟨c, hc, memory, hmemory, rfl⟩, hd⟩

theorem contextName_ne_ctx (chain : String) : contextName chain ≠ "ctx" := by
  intro h
  have hlength := congrArg String.length h
  rw [contextName, String.length_append] at hlength
  have : ("_ctx" : String).length = 4 := rfl
  have : ("ctx" : String).length = 3 := rfl
  omega

/-- The shared context, its map and its entry for the registry are there when a tool is bound. -/
theorem mem_contextsOf_shared {d : Stmt}
    (hd : d = .const "ctx" (.new "ChainContext" []) ∨ d = .const "toolRegistry" (.new "Map" []) ∨
      d = setting "ctx" "tool_registry" (.ident "toolRegistry")) :
    d ∈ contextsOf tools chains ↔ tools ≠ [] := by
  have hregistry : d ∈ registry tools ↔ tools ≠ [] := by
    unfold registry
    cases tools with
    | nil => simp
    | cons tool tools => rcases hd with rfl | rfl | rfl <;> simp
  have hmemory : ∀ chain memory, d ∉ memoryContext tools chain memory := by
    intro chain memory hmem
    have hname := contextName_ne_ctx chain
    unfold memoryContext at hmem
    rcases hd with rfl | rfl | rfl <;> cases tools <;> simp [setting, Script.Expr.method, hname.symm] at hmem
  have hblank : d ≠ .blank := by rcases hd with rfl | rfl | rfl <;> simp [setting]
  rw [mem_contextsOf hblank, hregistry]
  apply or_iff_left
  rintro ⟨c, -, memory, -, hmem⟩
  exact hmemory c.name memory hmem

/-- The context of a chain with a memory has the registry when a tool is bound. -/
theorem mem_contextsOf_memory {c : ChainEntry} (hc : c ∈ chains) (hmemory : c.memory.isSome) :
    setting (contextName c.name) "tool_registry" (.ident "toolRegistry") ∈ contextsOf tools chains ↔ tools ≠ [] := by
  obtain ⟨memory, hmemory⟩ := Option.isSome_iff_exists.1 hmemory
  have hname := contextName_ne_ctx
  rw [mem_contextsOf (by simp [setting])]
  cases tools with
  | nil => simp [registry, memoryContext, setting, Script.Expr.method]
  | cons tool tools =>
    refine iff_of_true (.inr ⟨c, hc, memory, hmemory, ?_⟩) (List.cons_ne_nil tool tools)
    simp [memoryContext]

theorem itemTools_registry (tools : List String) : itemTools (exprsOf (registry tools)) = [] := by
  have hentries : ∀ ts : List String, itemTools (exprsOf (ts.map fun t => .expr
      ((Script.Expr.ident "toolRegistry").method "set" [.member (.ident t) "name", .ident t]))) = [] := by
    intro ts
    induction ts with
    | nil => rfl
    | cons t ts ih => exact ih
  unfold registry
  split
  · rfl
  · rw [Script.exprsOf_append, Script.exprsOf_append, Script.itemTools_append, Script.itemTools_append, hentries]
    rfl

theorem itemTools_memoryContext (tools : List String) (chain : String) (memory : Script.Expr) :
    itemTools (exprsOf (memoryContext tools chain memory)) = memory.boundTools := by
  have hset : ((Script.Expr.ident (contextName chain)).method "set" [.str "memory", memory]).boundTools =
      memory.boundTools := by
    change [] ++ ([] ++ (memory.boundTools ++ [])) ++ [] = memory.boundTools
    simp
  unfold memoryContext
  rw [Script.exprsOf_append, Script.itemTools_append]
  change [] ++ (Script.Expr.boundTools _ ++ []) ++ _ = _
  rw [hset]
  split <;> exact (List.append_nil _).trans (List.append_nil _)

/-- What the contexts bind is what the memory configurations bind. -/
theorem itemTools_contextsOf (tools : List String) (chains : List ChainEntry) :
    itemTools (exprsOf (contextsOf tools chains)) = chains.flatMap fun c => itemTools c.memory.toList := by
  have hregistry : (if tools.isEmpty then [] else [registry tools]).flatMap (fun b => itemTools (exprsOf b)) = [] := by
    split
    · rfl
    · rw [List.flatMap_singleton, itemTools_registry]
  have hmemories : (chains.filterMap fun c => c.memory.map (memoryContext tools c.name)).flatMap
      (fun b => itemTools (exprsOf b)) = chains.flatMap fun c => itemTools c.memory.toList := by
    induction chains with
    | nil => rfl
    | cons c chains ih =>
      rw [List.filterMap_cons, List.flatMap_cons, ← ih]
      rcases c.memory with _ | memory
      · rfl
      · rw [Option.map_some, List.flatMap_cons, itemTools_memoryContext]
        exact congrArg (· ++ _) (List.append_nil _).symm
  unfold contextsOf
  dsimp only
  rw [exprsOf_separated, Script.itemTools_flatMap, List.flatMap_append, hregistry, hmemories, List.nil_append]

/-- A tool is bound by the code of the statements when a definition or a context of the module binds it. -/
theorem mem_boundTools_iff {options : Options} {p : Program} {ls : List Lowered} {t : Scope} {tool : String}
    (hlength : ls.length = p.length) :
    tool ∈ ls.flatMap Lowered.boundTools ↔ ∃ target : Script.Expr, target.method "bind_tool" [.ident tool] ∈
      Script.nodesOf ((assemble options p ls t).definitions ++ (assemble options p ls t).contexts) := by
  have hdefinitions : itemTools (exprsOf (assemble options p ls t).definitions) =
      ls.flatMap fun l => itemTools (exprsOf l.definitions) := by
    rw [assemble, exprsOf_definitionsOf _ hlength, Script.itemTools_flatMap]
  have hcontexts : tool ∈ itemTools (exprsOf (assemble options p ls t).contexts) ↔
      ∃ l ∈ ls, tool ∈ itemTools (l.chain.bind ChainEntry.memory).toList := by
    rw [assemble, itemTools_contextsOf, List.mem_flatMap]
    constructor
    · rintro ⟨c, hc, htool⟩
      obtain ⟨l, hl, hc⟩ := List.mem_filterMap.1 hc
      refine ⟨l, hl, ?_⟩
      rwa [hc]
    · rintro ⟨l, hl, htool⟩
      cases hc : l.chain with
      | none => simp [hc, itemTools] at htool
      | some c =>
        rw [hc] at htool
        exact ⟨c, List.mem_filterMap.2 ⟨l, hl, hc⟩, htool⟩
  rw [Script.nodesOf, ← Script.mem_itemTools_iff, Script.exprsOf_append, Script.itemTools_append, List.mem_append,
    hdefinitions, hcontexts]
  simp only [List.mem_flatMap, Lowered.boundTools, List.mem_append, and_or_left, exists_or]

end Module

/-- The tool registry is exact. The tools in it are those that the code of the statements binds, in the order of their
first bindings and without repetition; these are the tools that a definition or a memory configuration binds at any
depth. There are a registry, its map and a shared context when there is such a tool, and then the context of each chain
with a memory has the registry too. -/
theorem generate_registry {options : Options} {name code : String} {p : Program}
    (h : (generate options name p).1 = .ok code) :
    ∃ m ls t, (Lower.program p).run (Scope.initial p) = (.ok ls, t) ∧ m = Module.assemble options p ls t ∧
      code = m.text options name ∧
      registeredTools m.contexts = (ls.flatMap Lowered.boundTools).eraseDups ∧
      (registeredTools m.contexts).Nodup ∧
      (∀ tool, tool ∈ registeredTools m.contexts ↔ ∃ target : Script.Expr,
        target.method "bind_tool" [.ident tool] ∈ Script.nodesOf (m.definitions ++ m.contexts)) ∧
      (Stmt.const "ctx" (.new "ChainContext" []) ∈ m.contexts ↔ registeredTools m.contexts ≠ []) ∧
      (Stmt.const "toolRegistry" (.new "Map" []) ∈ m.contexts ↔ registeredTools m.contexts ≠ []) ∧
      (Module.setting "ctx" "tool_registry" (.ident "toolRegistry") ∈ m.contexts ↔
        registeredTools m.contexts ≠ []) ∧
      ∀ st ∈ p, ∀ steps context, st.declaration = .chain steps (some context) →
        (Module.setting (Module.contextName st.name) "tool_registry" (.ident "toolRegistry") ∈ m.contexts ↔
          registeredTools m.contexts ≠ []) := by
  obtain ⟨m, hm, rfl⟩ := generate_eq_ok h
  obtain ⟨ls, t, hrun, rfl⟩ := Module.ofProgram_eq_ok hm
  have htools : registeredTools (Module.assemble options p ls t).contexts = t.tools :=
    Module.registeredTools_contextsOf t.tools _
  refine ⟨_, ls, t, hrun, rfl, rfl, ?_⟩
  rw [htools]
  refine ⟨Lower.tools_of_program hrun, Lower.tools_nodup_of_program hrun, fun tool => ?_,
    Module.mem_contextsOf_shared (.inl rfl), Module.mem_contextsOf_shared (.inr (.inl rfl)),
    Module.mem_contextsOf_shared (.inr (.inr rfl)), fun st hst steps context hchain => ?_⟩
  · rw [Lower.tools_of_program hrun, List.mem_eraseDups, Module.mem_boundTools_iff (Lower.length_of_program hrun)]
  · obtain ⟨c, hc, hname, hmemory⟩ := Lower.exists_chain_of_memory hrun hst hchain
    rw [← hname]
    exact Module.mem_contextsOf_memory hc hmemory

/-- The model of this chain has one tool. -/
theorem generate_registry_toolChain :
    ∃ code m, (generate .standard "c" toolChain).1 = .ok code ∧ code = Module.text .standard "c" m ∧
      registeredTools m.contexts = ["t"] := by
  have h : (generate .standard "c" toolChain).1 = .ok _ := rfl
  obtain ⟨m, ls, t, hrun, -, hcode, htools, -⟩ := generate_registry h
  refine ⟨_, m, h, hcode, ?_⟩
  rw [htools]
  cases hrun
  rfl

end ChainCompiler
