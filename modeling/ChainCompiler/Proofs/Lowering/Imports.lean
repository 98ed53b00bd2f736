import ChainCompiler.Compilation
import ChainCompiler.Proofs.Lowering.Emission
import Mathlib.Data.String.Basic
import Mathlib.Tactic.Common

/-! The classes that a module imports are those it makes instances of, `Map` apart. A class is noted where an instance
of it is emitted, and nowhere else. -/

namespace ChainCompiler

open Script (Constructs)

theorem mem_insertSorted {c d : String} {cs : List String} : c ∈ insertSorted d cs ↔ c = d ∨ c ∈ cs := by
  induction cs with
  | nil => simp [insertSorted]
  | cons e cs ih =>
    rw [insertSorted]
    split_ifs with hlt heq
    · exact List.mem_cons
    · subst heq
      simp
    · simp only [List.mem_cons, ih]
      tauto

theorem insertSorted_pairwise {d : String} {cs : List String} (h : cs.Pairwise (· < ·)) :
    (insertSorted d cs).Pairwise (· < ·) := by
  induction cs with
  | nil => simp [insertSorted]
  | cons e cs ih =>
    obtain ⟨he, hcs⟩ := List.pairwise_cons.1 h
    rw [insertSorted]
    split_ifs with hlt heq
    · refine List.pairwise_cons.2 ⟨fun c hc => ?_, h⟩
      rcases List.mem_cons.1 hc with rfl | hc
      · exact hlt
      · exact String.lt_trans hlt (he c hc)
    · exact h
    · have hed : e < d := lt_of_le_of_ne (not_lt.1 hlt) (Ne.symm heq)
      refine List.pairwise_cons.2 ⟨fun c hc => ?_, ih hcs⟩
      rcases mem_insertSorted.1 hc with rfl | hc
      · exact hed
      · exact he c hc

variable {P : Expr → Prop} {s t : Scope} {es : List Script.Expr}

namespace Emitted

/-- The classes noted while code is emitted are those of its instances. -/
theorem mem_classes (h : Emitted P s es t) {c : String} : c ∈ t.classes ↔ c ∈ s.classes ∨ Constructs c es := by
  induction h with
  | nil => simp
  | append _ _ ih ih' => rw [ih', ih, Script.constructs_append, or_assoc]
  | perm _ hperm ih => rw [ih, Script.constructs_of_perm hperm]
  | silent _ hclasses _ ih => rw [hclasses, ih]
  | name _ => simp [Script.constructs_cons, Script.Expr.parts]
  | tool _ => simp [Script.constructs_cons, Script.Expr.parts]
  | str => simp [Script.constructs_cons, Script.Expr.parts]
  | number _ => simp [Script.constructs_cons, Script.Expr.parts]
  | bool => simp [Script.constructs_cons, Script.Expr.parts]
  | null => simp [Script.constructs_cons, Script.Expr.parts]
  | array _ ih => simp [ih, Script.constructs_cons, Script.Expr.parts]
  | object _ ih => simp [ih, Script.constructs_cons, Script.Expr.parts]
  | new _ _ ih =>
    rw [ih, Scope.note, mem_insertSorted, Script.constructs_new, List.append_nil, or_comm (a := c = _), or_assoc]
  | method _ _ ih =>
    rw [ih, Script.constructs_method]
    rfl

/-- The classes of a scope are increasing, and all of them components. -/
def Regular (s : Scope) : Prop := s.classes.Pairwise (· < ·) ∧ ∀ c ∈ s.classes, c ∈ components

theorem regular (h : Emitted P s es t) : Regular s → Regular t := by
  induction h with
  | nil => exact id
  | append _ _ ih ih' => exact ih' ∘ ih
  | silent _ hclasses _ ih =>
    unfold Regular
    rwa [hclasses]
  | tool _ =>
    unfold Regular
    rw [Scope.classes_register]
    exact id
  | new hc _ ih =>
    refine fun hs => ih ⟨insertSorted_pairwise hs.1, fun d hd => ?_⟩
    rcases mem_insertSorted.1 hd with rfl | hd
    · exact hc
    · exact hs.2 d hd
  | name _ => exact id
  | str => exact id
  | number _ => exact id
  | bool => exact id
  | null => exact id
  | perm _ _ ih => exact ih
  | array _ ih => exact ih
  | object _ ih => exact ih
  | method _ _ ih => exact ih

end Emitted

namespace Module

open Script (Stmt exprsOf)

def body (m : Module) : List Stmt := m.definitions ++ m.contexts ++ m.helpers

theorem exprsOf_separated (bs : List (List Stmt)) : exprsOf (separated bs) = bs.flatMap exprsOf := by
  induction bs with
  | nil => rfl
  | cons b bs ih =>
    cases bs with
    | nil => simp [separated]
    | cons b' bs =>
      rw [List.flatMap_cons, ← ih, separated, Script.exprsOf_append]
      · rfl
      · simp

theorem exprsOf_definitionsOf (debug : Bool) {p : Program} {ls : List Lowered} (h : ls.length = p.length) :
    exprsOf (definitionsOf debug p ls) = ls.flatMap fun l => exprsOf l.definitions := by
  unfold definitionsOf
  rw [exprsOf_separated, List.flatMap_map]
  have hsnd : (p.zip ls).map Prod.snd = ls := List.map_snd_zip h.le
  conv_rhs => rw [← hsnd, List.flatMap_map]
  congr 1
  funext x
  cases debug <;> simp [exprsOf, announcement, Stmt.exprs]

variable {c : String}

theorem constructs_registry {tools : List String} :
    Constructs c (exprsOf (registry tools)) ↔ tools.isEmpty = false ∧ (c = "ChainContext" ∨ c = "Map") := by
  unfold registry setting
  cases tools.isEmpty
  · simp [Script.constructs_exprsOf, or_and_right, exists_or, Stmt.exprs, Script.Expr.method,
      Script.constructs_cons, Script.Expr.parts, eq_comm]
  · simp [exprsOf]

theorem constructs_memoryContext {tools : List String} {chain : String} {memory : Script.Expr} :
    Constructs c (exprsOf (memoryContext tools chain memory)) ↔ c = "ChainContext" ∨ Constructs c [memory] := by
  unfold memoryContext setting
  cases tools.isEmpty <;>
    simp [exprsOf, Stmt.exprs, Script.Expr.method, Script.constructs_cons, Script.Expr.parts, eq_comm]

def MemoryConstructs (c : String) (chains : List ChainEntry) : Prop :=
  ∃ chain ∈ chains, ∃ memory ∈ chain.memory, c = "ChainContext" ∨ Constructs c [memory]

theorem constructs_contextsOf {tools : List String} {chains : List ChainEntry} :
    Constructs c (exprsOf (contextsOf tools chains)) ↔
      (tools.isEmpty = false ∧ (c = "ChainContext" ∨ c = "Map")) ∨ MemoryConstructs c chains := by
  have hregistry : Constructs c ((if tools.isEmpty then [] else [registry tools]).flatMap exprsOf) ↔
      tools.isEmpty = false ∧ (c = "ChainContext" ∨ c = "Map") := by
    rw [← constructs_registry]
    cases h : tools.isEmpty <;> simp [registry, h, exprsOf]
  have hmemories : Constructs c
      ((chains.filterMap fun ch => ch.memory.map (memoryContext tools ch.name)).flatMap exprsOf) ↔
      MemoryConstructs c chains := by
    simp only [MemoryConstructs, Script.constructs_flatMap, List.mem_filterMap, Option.map_eq_some_iff]
    constructor
    · rintro ⟨b, ⟨chain, hchain, memory, hmemory, rfl⟩, hb⟩
      exact ⟨chain, hchain, memory, hmemory, constructs_memoryContext.1 hb⟩
    · rintro ⟨chain, hchain, memory, hmemory, hc⟩
      exact ⟨_, ⟨chain, hchain, memory, hmemory, rfl⟩, constructs_memoryContext.2 hc⟩
  unfold contextsOf
  rw [exprsOf_separated, List.flatMap_append, Script.constructs_append, hregistry, hmemories]

theorem constructs_code {ls : List Lowered} :
    Constructs c (ls.flatMap Lowered.code) ↔
      Constructs c (ls.flatMap fun l => exprsOf l.definitions) ∨ MemoryConstructs c (ls.filterMap (·.chain)) := by
  have hcode : ∀ l : Lowered, Constructs c l.code ↔
      Constructs c (exprsOf l.definitions) ∨ MemoryConstructs c l.chain.toList := by
    intro l
    unfold Lowered.code MemoryConstructs
    rw [Script.constructs_append]
    rcases l.chain with _ | ⟨name, _ | memory⟩ <;> simp [Script.constructs_new]
  have hchains : (∃ l ∈ ls, MemoryConstructs c l.chain.toList) ↔ MemoryConstructs c (ls.filterMap (·.chain)) := by
    constructor
    · rintro ⟨l, hl, chain, hchain, h⟩
      exact ⟨chain, List.mem_filterMap.2 ⟨l, hl, Option.mem_toList.1 hchain⟩, h⟩
    · rintro ⟨chain, hchain, h⟩
      obtain ⟨l, hl, hchain⟩ := List.mem_filterMap.1 hchain
      exact ⟨l, hl, chain, Option.mem_toList.2 hchain, h⟩
  simp only [Script.constructs_flatMap, hcode, and_or_left, exists_or, hchains]

theorem mem_classesOf {scope : Scope} :
    c ∈ classesOf scope ↔ c ∈ scope.classes ∨ (scope.tools.isEmpty = false ∧ c = "ChainContext") := by
  unfold classesOf
  cases scope.tools.isEmpty
  · simp [mem_insertSorted, or_comm]
  · simp

theorem not_constructs_helpersOf {invokeMethod : String} {tools : List String} {chains : List ChainEntry} :
    ¬Constructs c (exprsOf (helpersOf invokeMethod tools chains)) := by
  unfold helpersOf
  split
  · simp [exprsOf]
  · rw [exprsOf, exprsOf_separated, Script.constructs_append, Script.constructs_flatMap]
    rintro (h | ⟨b, hb, h⟩)
    · simp [Stmt.exprs] at h
    · obtain ⟨chain, -, rfl⟩ := List.mem_map.1 hb
      have hcontext : ¬Constructs c (contextOf tools chains chain.name) := by
        unfold contextOf
        split
        · simp [Script.constructs_cons, Script.Expr.parts]
        · split <;> simp [Script.constructs_cons, Script.Expr.parts]
      simp [helper, exprsOf, Stmt.exprs, Script.Expr.method, Script.constructs_cons, Script.Expr.parts, hcontext] at h

variable {options : Options} {p : Program} {m : Module}

theorem mem_classes_iff (h : (ofProgram options p).1 = .ok m) (c : String) :
    c ∈ m.classes ↔ c ≠ "Map" ∧ Constructs c (exprsOf m.body) := by
  obtain ⟨ls, t, hrun, rfl⟩ := ofProgram_eq_ok h
  have hemitted := Lower.program_emits (P := fun _ => True) (by simp) (by simp) hrun
  have hmap : ¬"Map" ∈ t.classes := by
    intro hc
    have := (hemitted.regular ⟨.nil, by simp [Scope.initial]⟩).2 _ hc
    exact absurd this (by decide)
  have hmem : c ∈ t.classes ↔
      Constructs c (ls.flatMap fun l => exprsOf l.definitions) ∨ MemoryConstructs c (ls.filterMap (·.chain)) := by
    rw [hemitted.mem_classes, constructs_code]
    simp [Scope.initial]
  rw [body, Script.exprsOf_append, Script.exprsOf_append, Script.constructs_append, Script.constructs_append]
  simp only [assemble, mem_classesOf, not_constructs_helpersOf, or_false, constructs_contextsOf,
    exprsOf_definitionsOf _ (Lower.length_of_program hrun)]
  by_cases hc : c = "Map"
  · subst hc
    simp [hmap]
  · simp only [hmem, hc, or_false, ne_eq, not_false_eq_true, true_and]
    tauto

theorem classes_pairwise (h : (ofProgram options p).1 = .ok m) : m.classes.Pairwise (· < ·) := by
  obtain ⟨ls, t, hrun, rfl⟩ := ofProgram_eq_ok h
  have hemitted := Lower.program_emits (P := fun _ => True) (by simp) (by simp) hrun
  have hsorted := (hemitted.regular ⟨.nil, by simp [Scope.initial]⟩).1
  unfold assemble classesOf
  dsimp only
  split
  · exact hsorted
  · exact insertSorted_pairwise hsorted

/-- The sections of a module import nothing. -/
theorem not_imports_of_mem_body (h : (ofProgram options p).1 = .ok m) :
    ∀ d ∈ m.body, ∀ names source, d ≠ .imports names source := by
  obtain ⟨ls, t, hrun, rfl⟩ := ofProgram_eq_ok h
  have hnamed := Lower.named_of_program (P := fun _ => True) (by simp) (by simp) hrun
  simp only [body, assemble, List.forall_mem_append]
  refine ⟨⟨?_, ?_⟩, ?_⟩
  · refine forall_separated (by simp) (List.forall_mem_map.2 fun x hx => ?_)
    refine List.forall_mem_append.2 ⟨fun d hd => ?_, fun d hd => ?_⟩
    · split at hd
      · cases List.mem_singleton.1 hd
        simp [announcement]
      · cases hd
    · rcases (hnamed x.2 (List.of_mem_zip hx).2).definitions d hd with ⟨n, v, rfl, -⟩ | ⟨v, rfl⟩ <;> simp
  · refine forall_separated (by simp) (List.forall_mem_append.2 ⟨fun b hb d hd => ?_, fun b hb d hd => ?_⟩)
    · split at hb
      · cases hb
      · cases List.mem_singleton.1 hb
        unfold registry setting at hd
        split at hd
        · cases hd
        · simp only [List.mem_append, List.mem_cons, List.mem_map, List.not_mem_nil, or_false] at hd
          rcases hd with ((rfl | rfl) | ⟨t, -, rfl⟩) | rfl <;> simp
    · obtain ⟨chain, -, hb⟩ := List.mem_filterMap.1 hb
      obtain ⟨memory, -, rfl⟩ := Option.map_eq_some_iff.1 hb
      unfold memoryContext setting at hd
      simp only [List.mem_append, List.mem_cons, List.not_mem_nil, or_false] at hd
      rcases hd with (rfl | rfl) | hd
      · simp
      · simp
      · split at hd
        · cases hd
        · cases List.mem_singleton.1 hd
          simp
  · unfold helpersOf
    split
    · simp
    · refine List.forall_mem_cons.2 ⟨by simp, forall_separated (by simp) (List.forall_mem_map.2 fun c _ => ?_)⟩
      simp [helper]

theorem text_imports (names : List String) (source : String) :
    Script.text [.imports names source] =
      "import \x7b " ++ ", ".intercalate names ++ " \x7d from " ++ Text.quote source ++ ";" := by
  apply String.toList_inj.1
  simp [Script.text, Script.linesOf, Stmt.lines, Script.names, Script.joined, Script.indent]

theorem importLine_eq_empty {classes : List String} : importLine options classes = "" ↔ classes = [] := by
  unfold importLine
  split
  · next hempty => simpa using hempty
  · next hempty => simpa using hempty

end Module

theorem generate_eq_ok {options : Options} {name code : String} {p : Program}
    (h : (generate options name p).1 = .ok code) :
    ∃ m, (Module.ofProgram options p).1 = .ok m ∧ code = m.text options name := by
  unfold generate at h
  rcases hp : Module.ofProgram options p with ⟨e | m, ws⟩
  · rw [hp] at h
    cases h
  · rw [hp] at h
    cases h
    exact ⟨m, rfl, rfl⟩

/-- The import line is exact. The imported classes are in increasing order without repetition, and they are those that
the module makes instances of at any depth, `Map` apart. The line that names them stands between the header and the
sections, which import nothing; without such a class there is no line. -/
theorem generate_imports {options : Options} {name code : String} {p : Program}
    (h : (generate options name p).1 = .ok code) :
    ∃ m, (Module.ofProgram options p).1 = .ok m ∧ code = m.text options name ∧
      m.classes.Pairwise (· < ·) ∧
      (∀ c, c ∈ m.classes ↔ c ≠ "Map" ∧ ∃ args, Script.Expr.new c args ∈ Script.nodesOf m.body) ∧
      (∀ d ∈ m.body, ∀ names source, d ≠ .imports names source) ∧
      ∃ line, code = Module.header name ++ line ++ (Module.sectionText m.definitions ++
          Module.sectionText m.contexts ++ Module.sectionText m.helpers) ∧
        (line = "" ↔ ∀ c args, Script.Expr.new c args ∈ Script.nodesOf m.body → c = "Map") ∧
        (line ≠ "" → line = Script.text [.imports m.classes options.runtimeModule] ++ "\n" ∧
          line = "import \x7b " ++ ", ".intercalate m.classes ++ " \x7d from " ++ Text.quote options.runtimeModule ++
            ";\n") := by
  obtain ⟨m, hm, rfl⟩ := generate_eq_ok h
  have hclasses := Module.mem_classes_iff hm
  refine ⟨m, hm, rfl, Module.classes_pairwise hm, hclasses, Module.not_imports_of_mem_body hm,
    Module.importLine options m.classes, by simp only [Module.text, String.append_assoc], ?_, fun hline => ?_⟩
  · rw [Module.importLine_eq_empty, List.eq_nil_iff_forall_not_mem]
    constructor
    · intro hempty c args hnode
      by_contra hc
      exact hempty c ((hclasses c).2 ⟨hc, args, hnode⟩)
    · intro hmap c hc
      obtain ⟨hne, args, hnode⟩ := (hclasses c).1 hc
      exact hne (hmap c args hnode)
  · have htext : Module.importLine options m.classes = Script.text [.imports m.classes options.runtimeModule] ++ "\n" :=
      if_neg fun hempty => hline (Module.importLine_eq_empty.2 (by simpa using hempty))
    refine ⟨htext, htext.trans ?_⟩
    rw [Module.text_imports]
    exact String.append_assoc

def toolChain : Program :=
  let model : Expr := .bind (.call ⟨"Model", [], none⟩) ⟨"bind", [⟨none, .list [.identifier "t"]⟩], none⟩
  [⟨"c", 1, .chain [.identifier "Input", model] (some ⟨Keyword.memoryKw.spelling, [], none⟩)⟩]

theorem generate_imports_toolChain :
    ∃ code m rest, (generate .standard "c" toolChain).1 = .ok code ∧ (Module.ofProgram .standard toolChain).1 = .ok m ∧
      code = Module.header "c" ++
        "import \x7b Chain, ChainContext, Input, Model \x7d from \"../dist/tinychain.esm.js\";\n" ++ rest ∧
      ∀ c, c ∈ ["Chain", "ChainContext", "Input", "Model"] ↔
        c ≠ "Map" ∧ ∃ args, Script.Expr.new c args ∈ Script.nodesOf m.body := by
  have h : (generate .standard "c" toolChain).1 = .ok _ := rfl
  obtain ⟨m, hm, -, -, hclasses, -, line, hcode, hempty, hline⟩ := generate_imports h
  have hnames : m.classes = ["Chain", "ChainContext", "Input", "Model"] := by
    have hrun : (Module.ofProgram .standard toolChain).1.map Module.classes = .ok _ := rfl
    rw [hm] at hrun
    exact Except.ok.inj hrun
  have hne : line ≠ "" := by
    intro hnone
    obtain ⟨hmap, args, hnode⟩ := (hclasses "Chain").1 (by rw [hnames]; decide)
    exact hmap (hempty.1 hnone "Chain" args hnode)
  rw [hnames] at hclasses hline
  have htext : line = "import \x7b Chain, ChainContext, Input, Model \x7d from \"../dist/tinychain.esm.js\";\n" :=
    (hline hne).2.trans (by decide +kernel)
  rw [htext] at hcode
  exact ⟨_, m, _, h, hm, hcode, hclasses⟩

end ChainCompiler
