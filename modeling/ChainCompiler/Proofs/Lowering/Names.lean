import ChainCompiler.Proofs.Containment
import ChainCompiler.Proofs.Lowering.Chains
import Mathlib.Data.List.Nodup

/-! The names that a module binds at its top level: the imported classes, a constant for each statement, the contexts,
and a function for each chain. No name is reserved for the module's own use, so a program can take one of them; here is
said when it does. -/

namespace ChainCompiler

open Script (Stmt)

def Script.Stmt.binds : Stmt → List String
  | .imports names _ => names
  | .const name _ => [name]
  | .function name _ _ => [name]
  | _ => []

namespace Module

def topNames (options : Options) (m : Module) : List String := (m.statements options).flatMap Stmt.binds

theorem binds_separated (bs : List (List Stmt)) :
    (separated bs).flatMap Stmt.binds = bs.flatMap (·.flatMap Stmt.binds) := by
  induction bs with
  | nil => rfl
  | cons b bs ih =>
    cases bs with
    | nil => simp [separated]
    | cons b' bs =>
      rw [List.flatMap_cons, ← ih, separated, List.flatMap_append]
      · rfl
      · simp

end Module

namespace Lower

variable {p : Program} {st : Statement} {s t : Scope} {l : Lowered} {ls : List Lowered}

/-- Calls bind no names. -/
theorem binds_calls {α : Type} (f : α → Script.Expr) (xs : List α) :
    (xs.map fun x => Stmt.expr (f x)).flatMap Stmt.binds = [] := by
  induction xs with
  | nil => rfl
  | cons x xs ih => exact ih

/-- A statement binds its name, and no other. -/
theorem binds_of_statement (h : statement st s = (.ok l, t)) : l.definitions.flatMap Stmt.binds = [st.name] := by
  cases hst : st.declaration with
  | definition value =>
    obtain ⟨b, -, rfl⟩ := definitionValue_of_statement hst h
    exact congrArg (st.name :: ·) (binds_calls _ b.attachments)
  | chain steps context =>
    obtain ⟨es, memory, u, -, -, rfl⟩ := statement_chain hst h
    exact congrArg (st.name :: ·) (binds_calls _ es)
  | schema fields =>
    rw [(statement_schema hst h).1]
    rfl

theorem binds_of_program (debug : Bool) (h : (program p).run s = (.ok ls, t)) :
    (Module.definitionsOf debug p ls).flatMap Stmt.binds = p.map (·.name) := by
  change (Module.separated ((p.zip ls).map (Module.block debug))).flatMap Stmt.binds = _
  rw [Module.binds_separated]
  induction p generalizing s ls with
  | nil =>
    cases h
    rfl
  | cons st p ih =>
    obtain ⟨l, ls', u, hst, hp, rfl⟩ := program_cons_eq_ok h
    have hblock : (Module.block debug (st, l)).flatMap Stmt.binds = [st.name] := by
      rw [Module.block, List.flatMap_append, binds_of_statement hst]
      cases debug <;> rfl
    rw [List.zip_cons_cons, List.map_cons, List.flatMap_cons, hblock, ih hp]
    rfl

end Lower

namespace Module

theorem binds_registry (tools : List String) :
    (registry tools).flatMap Stmt.binds = if tools.isEmpty then [] else ["ctx", "toolRegistry"] := by
  unfold registry
  split
  · rfl
  · rw [List.flatMap_append, List.flatMap_append, Lower.binds_calls]
    rfl

theorem binds_contextsOf (tools : List String) (chains : List ChainEntry) :
    (contextsOf tools chains).flatMap Stmt.binds =
      (if tools.isEmpty then [] else ["ctx", "toolRegistry"]) ++
        (((chains.map ChainEntry.shape).filter (·.2)).map Prod.fst).map contextName := by
  have hmemories : (chains.filterMap fun c => c.memory.map (memoryContext tools c.name)).flatMap
      (·.flatMap Stmt.binds) = (((chains.map ChainEntry.shape).filter (·.2)).map Prod.fst).map contextName := by
    induction chains with
    | nil => rfl
    | cons c chains ih =>
      rw [List.filterMap_cons, List.map_cons, List.filter_cons]
      rcases hmemory : c.memory with _ | memory
      · simpa [ChainEntry.shape, hmemory] using ih
      · have hbinds : (memoryContext tools c.name memory).flatMap Stmt.binds = [contextName c.name] := by
          unfold memoryContext
          split <;> rfl
        rw [Option.map_some, List.flatMap_cons, hbinds, ih]
        simp [ChainEntry.shape, hmemory]
  unfold contextsOf
  dsimp only
  rw [binds_separated, List.flatMap_append, hmemories]
  congr 1
  rw [← binds_registry]
  split
  · next hempty =>
    rw [registry, if_pos hempty]
    rfl
  · rw [List.flatMap_singleton]

theorem binds_helpersOf (invokeMethod : String) (tools : List String) (chains : List ChainEntry) :
    (helpersOf invokeMethod tools chains).flatMap Stmt.binds = (chains.map ChainEntry.name).map ("run_" ++ ·) := by
  unfold helpersOf
  split
  · next hempty =>
    rw [List.isEmpty_iff.1 hempty]
    rfl
  · change (separated _).flatMap Stmt.binds = _
    rw [binds_separated, List.flatMap_map, List.map_map]
    exact List.map_eq_flatMap.symm

/-- The names of the contexts: the shared one with its registry, and those of the chains with a memory. -/
def contextNames (tools : List String) (p : Program) : List String :=
  (if tools.isEmpty then [] else ["ctx", "toolRegistry"]) ++ ((p.chains.filter (·.2)).map Prod.fst).map contextName

/-- The names of a module: the imported classes, the declared names, those of the contexts, and those of the functions
that run the chains. -/
theorem topNames_eq {options : Options} {p : Program} {ls : List Lowered} {t : Scope}
    (hrun : (Lower.program p).run (Scope.initial p) = (.ok ls, t)) :
    topNames options (assemble options p ls t) =
      classesOf t ++ (p.map (·.name) ++ (contextNames t.tools p ++ (p.chains.map Prod.fst).map ("run_" ++ ·))) := by
  have himports : (imports options (classesOf t)).flatMap Stmt.binds = classesOf t := by
    unfold imports
    split
    · next hempty => exact (List.isEmpty_iff.1 hempty).symm
    · exact List.append_nil _
  rw [topNames, statements, body, assemble, List.flatMap_append, List.flatMap_append, List.flatMap_append, himports,
    Lower.binds_of_program _ hrun, binds_contextsOf, binds_helpersOf]
  change _ ++ (_ ++ (_ ++ (((((Lowered.chains ls).map _).filter _).map _).map _)) ++ (((Lowered.chains ls).map _).map _)) = _
  rw [Lower.shapes_of_program hrun, Lower.chainNames_of_program hrun, List.append_assoc]
  rfl

end Module

/-- A name of a program is one that its module makes for itself, or the module makes one name twice. -/
inductive Clash (p : Program) (m : Module) : Prop
  /-- A statement has the name of a class that is imported. -/
  | imported {st} : st ∈ p → st.name ∈ ["Chain", "ChainContext"] → st.name ∈ m.classes → Clash p m
  /-- A statement has the name of the shared context or of the registry, and a tool is bound. -/
  | shared {st} : st ∈ p → st.name ∈ ["ctx", "toolRegistry"] → m.BindsTool → Clash p m
  /-- A statement has the name of the context of a chain with a memory. -/
  | context {st chain} : st ∈ p → (chain, true) ∈ p.chains → st.name = chain ++ "_ctx" → Clash p m
  /-- A statement has the name of the function that runs a chain. -/
  | function {st chain} : st ∈ p → chain ∈ p.chains.map Prod.fst → st.name = "run_" ++ chain → Clash p m
  /-- The context of one chain has the name of the function that runs another. -/
  | generated {chain other} : (chain, true) ∈ p.chains → other ∈ p.chains.map Prod.fst →
      chain ++ "_ctx" = "run_" ++ other → Clash p m

namespace Module

theorem getLast?_contextName (chain : String) : (contextName chain).toList.getLast? = some 'x' := by
  rw [contextName, String.toList_append, List.getLast?_append]
  rfl

theorem head?_run (chain : String) : ("run_" ++ chain).toList.head? = some 'r' := by
  rw [String.toList_append]
  rfl

theorem mem_contextNames {tools : List String} {p : Program} {n : String} :
    n ∈ contextNames tools p ↔
      (tools.isEmpty = false ∧ n ∈ ["ctx", "toolRegistry"]) ∨ ∃ chain, (chain, true) ∈ p.chains ∧ n = chain ++ "_ctx" := by
  have hshared : n ∈ (if tools.isEmpty then [] else ["ctx", "toolRegistry"]) ↔
      tools.isEmpty = false ∧ n ∈ ["ctx", "toolRegistry"] := by
    cases tools.isEmpty <;> simp
  have hmemory : n ∈ ((p.chains.filter (·.2)).map Prod.fst).map contextName ↔
      ∃ chain, (chain, true) ∈ p.chains ∧ n = chain ++ "_ctx" := by
    simp only [List.mem_map, List.mem_filter, Prod.exists, contextName]
    constructor
    · rintro ⟨chain, ⟨_, memory, ⟨hchain, rfl⟩, rfl⟩, rfl⟩
      exact ⟨_, hchain, rfl⟩
    · rintro ⟨chain, hchain, rfl⟩
      exact ⟨chain, ⟨chain, true, ⟨hchain, rfl⟩, rfl⟩, rfl⟩
  rw [contextNames, List.mem_append, hshared, hmemory]

theorem nodup_chainNames {p : Program} (hp : (p.map (·.name)).Nodup) : (p.chains.map Prod.fst).Nodup := by
  have hsub : (p.chains.map Prod.fst).Sublist (p.map (·.name)) := by
    unfold Program.chains
    induction p with
    | nil => exact .slnil
    | cons st p ih =>
      have hrest := ih (List.nodup_cons.1 hp).2
      rw [List.filterMap_cons]
      unfold Statement.chain?
      split
      · exact .cons st.name hrest
      · next hchain =>
        split at hchain
        · cases hchain
          exact .cons_cons st.name hrest
        · cases hchain
  exact hp.sublist hsub

theorem nodup_contextNames {tools : List String} {p : Program} (hp : (p.map (·.name)).Nodup) :
    (contextNames tools p).Nodup := by
  refine List.nodup_append'.2 ⟨?_, ?_, ?_⟩
  · split <;> decide
  · have hinj : Function.Injective contextName := fun a b h => by simpa [contextName] using h
    exact ((nodup_chainNames hp).sublist (List.filter_sublist.map Prod.fst)).map hinj
  · intro n hn hmemory
    obtain ⟨chain, -, rfl⟩ := List.mem_map.1 hmemory
    have hlast := getLast?_contextName chain
    split at hn
    · cases hn
    · rcases List.mem_cons.1 hn with h | hn
      · exact contextName_ne_ctx chain h
      · rw [List.mem_singleton.1 hn] at hlast
        exact absurd hlast (by decide)

theorem nodup_runNames {p : Program} (hp : (p.map (·.name)).Nodup) :
    ((p.chains.map Prod.fst).map ("run_" ++ ·)).Nodup := by
  have hinj : Function.Injective ("run_" ++ · : String → String) := fun a b h => by simpa using h
  exact (nodup_chainNames hp).map hinj

/-- No class has the name of a context or of a function that runs a chain. -/
theorem disjoint_components {tools : List String} {p : Program} {c : String} (hc : c ∈ components) :
    c ∉ contextNames tools p ++ (p.chains.map Prod.fst).map ("run_" ++ ·) := by
  have hlast : ∀ c ∈ components, c.toList.getLast? ≠ some 'x' := by decide
  have hhead : ∀ c ∈ components, c.toList.head? ≠ some 'r' := by decide
  have hshared : ∀ c ∈ components, c ∉ ["ctx", "toolRegistry"] := by decide
  intro h
  rcases List.mem_append.1 h with h | h
  · rcases mem_contextNames.1 h with ⟨-, h⟩ | ⟨chain, -, rfl⟩
    · exact hshared c hc h
    · exact hlast _ hc (getLast?_contextName chain)
  · obtain ⟨chain, -, rfl⟩ := List.mem_map.1 h
    exact hhead _ hc (head?_run chain)

/-- A statement of a source that has the name of a component has the name of a chain or of a context. -/
theorem name_of_component {name : String} (hname : IsFreeName name) (hc : name ∈ components) :
    name ∈ ["Chain", "ChainContext"] := by
  have hkeyword : ∀ c ∈ components, c ∈ ["Chain", "ChainContext"] ∨ ∃ k ∈ Keyword.all, c = k.spelling := by decide
  rcases hkeyword name hc with h | ⟨k, -, hk⟩
  · exact h
  · exact absurd hk (hname.2 k)

section Assembled

variable {options : Options} {p : Program} {ls : List Lowered} {t : Scope}
  (hrun : (Lower.program p).run (Scope.initial p) = (.ok ls, t))
include hrun

theorem mem_components_of_classesOf {c : String} (hc : c ∈ classesOf t) : c ∈ components := by
  have hemitted := Lower.program_emits (P := fun _ => True) (by simp) (by simp) hrun
  rcases mem_classesOf.1 hc with hc | ⟨-, rfl⟩
  · exact (hemitted.regular ⟨.nil, by simp [Scope.initial]⟩).2 c hc
  · decide

/-- A statement has a name that the contexts have. -/
theorem clash_of_contextNames {st : Statement} (hst : st ∈ p) (h : st.name ∈ contextNames t.tools p) :
    Clash p (assemble options p ls t) := by
  rcases mem_contextNames.1 h with ⟨htools, h⟩ | ⟨chain, hchain, h⟩
  · exact .shared hst h ((bindsTool_assemble hrun).2 htools)
  · exact .context hst hchain h

theorem disjoint_names {m : Module} (hno : ¬Clash p m) (hm : m = assemble options p ls t) :
    (p.map (·.name)).Disjoint (contextNames t.tools p ++ (p.chains.map Prod.fst).map ("run_" ++ ·)) := by
  subst hm
  intro n hn h
  obtain ⟨st, hst, rfl⟩ := List.mem_map.1 hn
  rcases List.mem_append.1 h with h | h
  · exact hno (clash_of_contextNames hrun hst h)
  · obtain ⟨chain, hchain, h⟩ := List.mem_map.1 h
    exact hno (.function hst hchain h.symm)

omit hrun in
theorem disjoint_generated {m : Module} (hno : ¬Clash p m) :
    (contextNames t.tools p).Disjoint ((p.chains.map Prod.fst).map ("run_" ++ ·)) := by
  intro n hn h
  obtain ⟨other, hother, rfl⟩ := List.mem_map.1 h
  rcases mem_contextNames.1 hn with ⟨-, hn⟩ | ⟨chain, hchain, hn⟩
  · have hhead : ∀ c ∈ ["ctx", "toolRegistry"], c.toList.head? ≠ some 'r' := by decide
    exact hhead _ hn (head?_run other)
  · exact hno (.generated hchain hother hn.symm)

theorem disjoint_classes {m : Module} (hfree : ∀ st ∈ p, IsFreeName st.name) (hno : ¬Clash p m)
    (hm : m = assemble options p ls t) :
    (classesOf t).Disjoint
      (p.map (·.name) ++ (contextNames t.tools p ++ (p.chains.map Prod.fst).map ("run_" ++ ·))) := by
  subst hm
  intro c hc h
  have hcomponent := mem_components_of_classesOf hrun hc
  rcases List.mem_append.1 h with h | h
  · obtain ⟨st, hst, rfl⟩ := List.mem_map.1 h
    exact hno (.imported hst (name_of_component (hfree st hst) hcomponent) hc)
  · exact disjoint_components hcomponent h

/-- The names of a module are distinct when there is no clash. -/
theorem nodup_topNames (hfree : ∀ st ∈ p, IsFreeName st.name) (hp : (p.map (·.name)).Nodup)
    (hno : ¬Clash p (assemble options p ls t)) : (topNames options (assemble options p ls t)).Nodup := by
  have hclasses : (classesOf t).Nodup := by
    have hm : (ofProgram options p).1 = .ok (assemble options p ls t) := by
      rw [ofProgram, hrun]
      rfl
    exact (classes_pairwise hm).imp fun h => ne_of_lt h
  rw [topNames_eq hrun]
  refine List.nodup_append'.2 ⟨hclasses, List.nodup_append'.2 ⟨hp, List.nodup_append'.2 ⟨?_, ?_, ?_⟩, ?_⟩, ?_⟩
  · exact nodup_contextNames hp
  · exact nodup_runNames hp
  · exact disjoint_generated hno
  · exact disjoint_names hrun hno rfl
  · exact disjoint_classes hrun hfree hno rfl

/-- A clash makes the module bind a name twice. -/
theorem not_nodup_of_clash (h : Clash p (assemble options p ls t)) :
    ¬(topNames options (assemble options p ls t)).Nodup := by
  intro hnodup
  rw [topNames_eq hrun] at hnodup
  obtain ⟨-, hrest, hclasses⟩ := List.nodup_append'.1 hnodup
  obtain ⟨-, hgenerated, hnames⟩ := List.nodup_append'.1 hrest
  obtain ⟨-, -, hgenerated⟩ := List.nodup_append'.1 hgenerated
  have hname : ∀ st ∈ p, st.name ∈ p.map (·.name) := fun st hst => List.mem_map.2 ⟨st, hst, rfl⟩
  have hfunction : ∀ chain ∈ p.chains.map Prod.fst, "run_" ++ chain ∈ (p.chains.map Prod.fst).map ("run_" ++ ·) :=
    fun chain hchain => List.mem_map.2 ⟨chain, hchain, rfl⟩
  cases h with
  | imported hst _ hc => exact hclasses hc (List.mem_append_left _ (hname _ hst))
  | shared hst hshared hbound =>
    refine hnames (hname _ hst) (List.mem_append_left _ (mem_contextNames.2 (.inl ⟨?_, hshared⟩)))
    exact (bindsTool_assemble hrun).1 hbound
  | context hst hchain hcontext =>
    exact hnames (hname _ hst) (List.mem_append_left _ (mem_contextNames.2 (.inr ⟨_, hchain, hcontext⟩)))
  | function hst hchain hrunner =>
    exact hnames (hname _ hst) (List.mem_append_right _ (hrunner ▸ hfunction _ hchain))
  | generated hchain hother heq =>
    exact hgenerated (mem_contextNames.2 (.inr ⟨_, hchain, rfl⟩)) (heq ▸ hfunction _ hother)

end Assembled

end Module

theorem Program.isFreeName_of_ofSource {source : String} {p : Program} (h : ofSource source = .ok p) :
    ∀ st ∈ p, IsFreeName st.name := by
  obtain ⟨ts, hsentences, hlexical⟩ := sentences_of_ofSource h
  exact fun st hst => (Grammar.wellFormed_of_sentences hsentences hlexical st hst).1

/-- When the names of a module clash. Where the statements of a source have distinct names, the names that its module
binds at the top level are distinct unless a statement has the name of an imported class, of the shared context or of the
registry while a tool is bound, of the context of a chain with a memory, or of the function that runs a chain, or one
chain's context has the name of another's function. -/
theorem nodup_topNames_iff {options : Options} {name source code : String} {p : Program}
    (hsource : Program.ofSource source = .ok p) (hp : (p.map (·.name)).Nodup)
    (h : (generate options name p).1 = .ok code) :
    ∃ m, (Module.ofProgram options p).1 = .ok m ∧ code = m.text options name ∧
      ((m.topNames options).Nodup ↔ ¬Clash p m) := by
  obtain ⟨m, hm, rfl⟩ := generate_eq_ok h
  obtain ⟨ls, t, hrun, rfl⟩ := Module.ofProgram_eq_ok hm
  refine ⟨_, hm, rfl, ?_, ?_⟩
  · exact fun hnodup hclash => Module.not_nodup_of_clash hrun hclash hnodup
  · exact fun hno => Module.nodup_topNames hrun (Program.isFreeName_of_ofSource hsource) hp hno

/-- A definition that has the name of the shared context, and binds a tool. -/
def contextSource : String := "def ctx = Model() @ bind(tools=[t])"

def contextProgram : Program :=
  [⟨"ctx", 1, .definition
    (.bind (.call ⟨"Model", [], none⟩) ⟨"bind", [⟨some "tools", .list [.identifier "t"]⟩], none⟩)⟩]

def contextTokens : List Token :=
  [⟨.keyword .defKw, "def", ⟨1, 1⟩⟩, ⟨.identifier, "ctx", ⟨1, 5⟩⟩, ⟨.mark .assign, "=", ⟨1, 9⟩⟩,
    ⟨.keyword .model, "Model", ⟨1, 11⟩⟩, ⟨.mark .lparen, "(", ⟨1, 16⟩⟩, ⟨.mark .rparen, ")", ⟨1, 17⟩⟩,
    ⟨.mark .bind, "@", ⟨1, 19⟩⟩, ⟨.identifier, "bind", ⟨1, 21⟩⟩, ⟨.mark .lparen, "(", ⟨1, 25⟩⟩,
    ⟨.identifier, "tools", ⟨1, 26⟩⟩, ⟨.mark .assign, "=", ⟨1, 31⟩⟩, ⟨.mark .lbracket, "[", ⟨1, 32⟩⟩,
    ⟨.identifier, "t", ⟨1, 33⟩⟩, ⟨.mark .rbracket, "]", ⟨1, 34⟩⟩, ⟨.mark .rparen, ")", ⟨1, 35⟩⟩, ⟨.eof, "", ⟨1, 36⟩⟩]

theorem ofSource_contextSource : Program.ofSource contextSource = .ok contextProgram := by
  have htokens : Token.tokenize contextSource = .ok contextTokens := rfl
  exact (Program.ofSource_of_tokenize htokens).trans rfl

theorem nodup_topNames_iff_contextProgram :
    ∃ m, (Module.ofProgram .standard contextProgram).1 = .ok m ∧
      ((m.topNames .standard).Nodup ↔ ¬Clash contextProgram m) := by
  have h : (generate .standard "ctx" contextProgram).1 = .ok _ := rfl
  obtain ⟨m, hm, -, hiff⟩ := nodup_topNames_iff ofSource_contextSource (by decide) h
  exact ⟨m, hm, hiff⟩

/-- The module of a definition named `ctx` that binds a tool has two constants of that name. -/
theorem topNames_contextProgram :
    Program.ofSource contextSource = .ok contextProgram ∧ (contextProgram.map (·.name)).Nodup ∧
      ∃ m, (Module.ofProgram .standard contextProgram).1 = .ok m ∧
        m.topNames .standard = ["ChainContext", "Model", "ctx", "ctx", "toolRegistry"] ∧
        ¬(m.topNames .standard).Nodup := by
  exact ⟨ofSource_contextSource, by decide, _, rfl, rfl, by decide⟩

end ChainCompiler
