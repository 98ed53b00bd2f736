import ChainCompiler.Proofs.Lowering.Imports
import ChainCompiler.Proofs.Lowering.Labelling
import Mathlib.Data.List.Perm.Basic
import Mathlib.Data.Set.List

/-! The chains that stand inside the expressions of a module are the branches of its routers, and no two of them have
the same label, in whatever statements and however deep they are. -/

namespace ChainCompiler

open Script (instances)

namespace Module

open Script (Stmt innerOf exprsOf)

/-- The arguments of the chains that stand inside expressions. The chains that constants are declared as are not
among them. -/
def inlineChains (m : Module) : List (List Script.Expr) := instances "Chain" (innerOf m.body)

theorem innerOf_separated (bs : List (List Stmt)) : innerOf (separated bs) = bs.flatMap innerOf := by
  induction bs with
  | nil => rfl
  | cons b bs ih =>
    cases bs with
    | nil => simp [separated]
    | cons b' bs =>
      rw [List.flatMap_cons, ← ih, separated, Script.innerOf_append]
      · rfl
      · simp

theorem innerOf_definitionsOf (debug : Bool) {p : Program} {ls : List Lowered} (h : ls.length = p.length) :
    innerOf (definitionsOf debug p ls) = ls.flatMap fun l => innerOf l.definitions := by
  unfold definitionsOf
  rw [innerOf_separated, List.flatMap_map]
  have hsnd : (p.zip ls).map Prod.snd = ls := List.map_snd_zip h.le
  conv_rhs => rw [← hsnd, List.flatMap_map]
  congr 1
  funext x
  cases debug <;> simp [innerOf, announcement, Stmt.inner, Stmt.exprs]

theorem instances_registry (tools : List String) : instances "Chain" (innerOf (registry tools)) = [] := by
  have hnone : instances "Chain" (exprsOf (registry tools)) = [] :=
    Script.instances_eq_nil fun h => absurd (constructs_registry.1 h).2 (by decide)
  exact List.sublist_nil.1 (hnone ▸ Script.instances_innerOf_sublist (registry tools))

theorem instances_memoryContext (tools : List String) (chain : String) (memory : Script.Expr) :
    instances "Chain" (innerOf (memoryContext tools chain memory)) = instances "Chain" [memory] := by
  unfold memoryContext setting
  cases tools.isEmpty <;>
    simp [innerOf, Stmt.inner, Stmt.exprs, Script.Expr.method, Script.instances_cons, Script.Expr.instance?,
      Script.Expr.parts]

theorem instances_contextsOf (tools : List String) (chains : List ChainEntry) :
    instances "Chain" (innerOf (contextsOf tools chains)) =
      chains.flatMap fun c => instances "Chain" c.memory.toList := by
  have hregistry : instances "Chain" ((if tools.isEmpty then [] else [registry tools]).flatMap innerOf) = [] := by
    cases tools.isEmpty
    · simpa using instances_registry tools
    · rfl
  have hmemories : instances "Chain"
      ((chains.filterMap fun c => c.memory.map (memoryContext tools c.name)).flatMap innerOf) =
      chains.flatMap fun c => instances "Chain" c.memory.toList := by
    induction chains with
    | nil => rfl
    | cons c chains ih =>
      cases hmemory : c.memory with
      | none => simpa [hmemory] using ih
      | some memory => simpa [hmemory, instances_memoryContext] using ih
  unfold contextsOf
  rw [innerOf_separated, List.flatMap_append, Script.instances_append, hregistry, hmemories, List.nil_append]

theorem instances_helpersOf (invokeMethod : String) (tools : List String) (chains : List ChainEntry) :
    instances "Chain" (innerOf (helpersOf invokeMethod tools chains)) = [] := by
  have hnone : instances "Chain" (exprsOf (helpersOf invokeMethod tools chains)) = [] :=
    Script.instances_eq_nil not_constructs_helpersOf
  exact List.sublist_nil.1 (hnone ▸ Script.instances_innerOf_sublist (helpersOf invokeMethod tools chains))

theorem instances_memories (ls : List Lowered) :
    ((ls.filterMap (·.chain)).flatMap fun c => instances "Chain" c.memory.toList) =
      ls.flatMap fun l => instances "Chain" (l.chain.bind ChainEntry.memory).toList := by
  induction ls with
  | nil => rfl
  | cons l ls ih =>
    rw [List.flatMap_cons, ← ih]
    cases hchain : l.chain with
    | none => simp [hchain]
    | some c => simp [hchain]

/-- The chains inside the expressions of a module are those that its statements contribute. -/
theorem inlineChains_assemble (options : Options) {p : Program} {ls : List Lowered} (scope : Scope)
    (h : ls.length = p.length) :
    (assemble options p ls scope).inlineChains.Perm (instances "Chain" (ls.flatMap Lowered.inner)) := by
  unfold inlineChains body assemble
  dsimp only
  rw [Script.innerOf_append, Script.innerOf_append, Script.instances_append, Script.instances_append,
    innerOf_definitionsOf _ h, instances_contextsOf, instances_helpersOf, List.append_nil, instances_memories,
    Script.instances_flatMap, Script.instances_flatMap]
  simp only [Lowered.inner, Script.instances_append]
  exact List.flatMap_append_perm ls _ _

/-- The chains inside the expressions of a module have labels of branches of routers, and no two of them the same. -/
theorem exists_labels {options : Options} {p : Program} {m : Module} (h : (ofProgram options p).1 = .ok m) :
    ∃ labels : List String, m.inlineChains = labels.map (fun label => [.str label]) ∧ labels.Nodup ∧
      ∀ label ∈ labels, ∃ number branch, IsLabel number branch label := by
  obtain ⟨ls, t, hrun, rfl⟩ := ofProgram_eq_ok h
  have hperm := inlineChains_assemble options t (Lower.length_of_program hrun)
  have hfresh := Lower.program_labelling hrun
  have hlabelled : ∀ args ∈ (assemble options p ls t).inlineChains,
      ∃ label number branch, args = [.str label] ∧ IsLabel number branch label := by
    intro args hargs
    obtain ⟨label, number, branch, hargs, hlabel, -⟩ := hfresh.label args (hperm.mem_iff.1 hargs)
    exact ⟨label, number, branch, hargs, hlabel⟩
  have hrange : (assemble options p ls t).inlineChains ∈
      Set.range (List.map fun label => [Script.Expr.str label]) := by
    rw [Set.range_list_map]
    intro args hargs
    obtain ⟨label, -, -, rfl, -⟩ := hlabelled args hargs
    exact ⟨label, rfl⟩
  have hnodup := hperm.nodup_iff.2 hfresh.nodup
  obtain ⟨labels, hlabels⟩ := hrange
  rw [← hlabels] at hnodup hlabelled
  refine ⟨labels, hlabels.symm, hnodup.of_map _, fun label hmem => ?_⟩
  obtain ⟨label', number, branch, hargs, hlabel⟩ := hlabelled [.str label] (List.mem_map.2 ⟨label, hmem, rfl⟩)
  cases hargs
  exact ⟨number, branch, hlabel⟩

end Module

/-- Branch labels are unique in a module: the chains that stand inside the expressions of a module, at any depth, are
each made with one label, which is that of a branch of a router, and no two of them with the same. -/
theorem generate_branchLabels {options : Options} {name code : String} {p : Program}
    (h : (generate options name p).1 = .ok code) :
    ∃ (m : Module) (labels : List String), (Module.ofProgram options p).1 = .ok m ∧ code = m.text options name ∧
      m.inlineChains = labels.map (fun label => [.str label]) ∧ labels.Nodup ∧
      ∀ label ∈ labels, ∃ number branch, IsLabel number branch label := by
  obtain ⟨m, hm, rfl⟩ := generate_eq_ok h
  obtain ⟨labels, hlabels⟩ := Module.exists_labels hm
  exact ⟨m, labels, hm, rfl, hlabels⟩

/-- Statements whose names look like labels, with a router in a case of another one. -/
def nestedRouters : Program :=
  let step : Expr := .identifier "Input"
  let inner : Expr := .call ⟨"Router", [], some ⟨[(.string "y", [step])], some [step]⟩⟩
  [⟨"a", 1, .definition (.call ⟨"Router", [], some ⟨[(.string "x", [inner]), (.string "z", [step])], some [step]⟩⟩)⟩,
    ⟨"a_r1_case_0", 2, .chain [inner] none⟩]

theorem generate_branchLabels_nestedRouters :
    ∃ (code : String) (m : Module) (labels : List String), (generate .standard "a" nestedRouters).1 = .ok code ∧
      (Module.ofProgram .standard nestedRouters).1 = .ok m ∧
      labels = ["a_r1_case_0", "a_r2_case_0", "a_r2_default", "a_r1_case_1", "a_r1_default", "a_r1_case_0_r3_case_0",
        "a_r1_case_0_r3_default"] ∧
      m.inlineChains = labels.map (fun label => [.str label]) ∧ labels.Nodup := by
  have h : (generate .standard "a" nestedRouters).1 = .ok _ := rfl
  obtain ⟨m, labels, hm, -, hlabels, hnodup, -⟩ := generate_branchLabels h
  have hmodule : (Module.ofProgram .standard nestedRouters).1 = .ok _ := rfl
  cases hm.symm.trans hmodule
  have hinjective : Function.Injective fun label => [Script.Expr.str label] := fun a b hab => by simpa using hab
  exact ⟨_, _, labels, h, hmodule, hinjective.list_map hlabels.symm, hlabels, hnodup⟩

end ChainCompiler
