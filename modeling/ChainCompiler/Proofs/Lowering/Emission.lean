import ChainCompiler.Proofs.Lowering.Walk

/-! What lowering can emit, and what emitting it does to the classes and the tools of the scope. The code consists of
leaves of the program, of strings, and of instances and calls from a fixed vocabulary; an instance notes its class and a
bound tool is registered, and nothing else is. -/

namespace ChainCompiler

/-- The expressions can be emitted between the two scopes. All leaves of programs that get into them satisfy `P`. -/
inductive Emitted (P : Expr → Prop) : Scope → List Script.Expr → Scope → Prop
  | nil {s} : Emitted P s [] s
  | append {s t u es fs} : Emitted P s es t → Emitted P t fs u → Emitted P s (es ++ fs) u
  | perm {s t es fs} : Emitted P s es t → es.Perm fs → Emitted P s fs t
  | silent {s t t' es} : Emitted P s es t → t'.classes = t.classes → t'.tools = t.tools → Emitted P s es t'
  | name {s n} : P (.identifier n) → Emitted P s [.ident n] s
  | tool {s n} : P (.identifier n) → Emitted P s [.ident n] (s.register n)
  | str {s text} : Emitted P s [.str text] s
  | number {s v} : P (.number v) → Emitted P s [.number v] s
  | bool {s b} : Emitted P s [.bool b] s
  | null {s} : Emitted P s [.null] s
  | array {s t es} : Emitted P s es t → Emitted P s [.array es] t
  | object {s t fs} : Emitted P s (fs.map Prod.snd) t → Emitted P s [.object fs] t
  | new {s t c es} : c ∈ components → Emitted P (s.note c) es t → Emitted P s [.new c es] t
  | method {s t m e a es} : m ∈ methods → Emitted P s (e :: a :: es) t → Emitted P s (e.method m [a] :: es) t

namespace Emitted

variable {P : Expr → Prop} {s t u : Scope}

theorem cons {e : Script.Expr} {es : List Script.Expr} (he : Emitted P s [e] t) (hes : Emitted P t es u) :
    Emitted P s (e :: es) u := he.append hes

/-- The nodes of a chain, added one by one. -/
theorem chained {label : String} {nodes : List Script.Expr} (h : Emitted P (s.note "Chain") nodes t) :
    Emitted P s [chained label nodes] t := by
  have hadded : ∀ chain : Script.Expr, Emitted P s (chain :: nodes) t →
      Emitted P s [nodes.foldl (fun e n => e.method "addNode" [n]) chain] t := by
    clear h
    induction nodes with
    | nil => exact fun _ h => h
    | cons node nodes ih => exact fun chain h => ih _ (.method (by decide) h)
  have hnew : Emitted P s [.new "Chain" [.str label]] (s.note "Chain") := .new (by decide) .str
  exact hadded _ (hnew.cons h)

theorem routes {label : String} {index : Nat} {rs : List Script.Expr} (h : Routes (Emitted P) label index s rs t) :
    Emitted P s rs t := by
  induction h with
  | nil => exact .nil
  | cons hcondition haction _ ih => exact .cons (.object (.cons hcondition haction.chained)) ih

theorem fallback {label : String} {e : Script.Expr} (h : Fallback (Emitted P) label s e t) : Emitted P s [e] t := by
  cases h with
  | none => exact .null
  | some haction => exact haction.chained

/-- Whatever lowering emits can be emitted. -/
theorem walk : Walk P (Emitted P) where
  silent hclasses htools _ := .silent .nil hclasses htools
  append := .append
  name := .name
  str := .str
  number := .number
  bool := .bool
  null := .null
  array := .array
  object := .object
  new hc _ := .new hc
  router {_ t _ _ _ _ _} hconfig hroutes hfallback := by
    have hcounted : Emitted P _ _ t.count := hconfig.silent rfl rfl
    exact .new (by decide) (hcounted.cons (.cons (.array (routes hroutes)) (fallback hfallback)))
  tool he hn := .method (by decide) (he.cons (.tool hn))
  method hm _ he ha := .method hm (he.cons ha)

end Emitted

/-- The expressions that a statement contributes to a module, with the context that a memory is set in. -/
def Lowered.code (l : Lowered) : List Script.Expr :=
  Script.exprsOf l.definitions ++ (l.chain.bind ChainEntry.memory).elim [] fun m => [.new "ChainContext" [], m]

/-- All names that a statement's contribution declares satisfy `P`. -/
structure Lowered.Named (P : Expr → Prop) (l : Lowered) : Prop where
  definitions : ∀ d ∈ l.definitions, (∃ n v, d = .const n v ∧ P (.identifier n)) ∨ ∃ v, d = .expr v
  chain : ∀ c ∈ l.chain, P (.identifier c.name)

variable {P : Expr → Prop} {s t : Scope} {l : Lowered} {name : String}

theorem Contributes.emitted (h : Contributes (Emitted P) name s l t) : Emitted P s l.code t := by
  unfold Lowered.code
  cases h with
  | definition hcode =>
    rw [Script.exprsOf, Script.exprsOf_map_expr]
    exact hcode.append .nil
  | chain hcalls hmemory =>
    rw [Script.exprsOf, Script.exprsOf_map_expr]
    refine .append (.cons (.new (by decide) .str) hcalls) ?_
    cases hmemory with
    | none => exact .nil
    | some hconfig => exact .perm (hconfig.cons (.new (by decide) .nil)) (.swap _ _ _)
  | schema => exact .append (Emitted.walk.schemaOf _ _) .nil

theorem Contributes.named {R : Scope → List Script.Expr → Scope → Prop} (hname : P (.identifier name))
    (h : Contributes R name s l t) : l.Named P := by
  have hconst : ∀ v (calls : List Script.Expr), ∀ d ∈ Script.Stmt.const name v :: calls.map .expr,
      (∃ n v, d = .const n v ∧ P (.identifier n)) ∨ ∃ v, d = .expr v := by
    intro v calls
    refine List.forall_mem_cons.2 ⟨.inl ⟨name, v, rfl, hname⟩, ?_⟩
    exact List.forall_mem_map.2 fun e _ => .inr ⟨e, rfl⟩
  cases h with
  | definition _ => exact ⟨hconst _ _, by simp⟩
  | chain _ _ => exact ⟨hconst _ _, by simpa using hname⟩
  | schema => exact ⟨hconst _ [], by simp⟩

namespace Lower

variable {p : Program} (hname : ∀ st ∈ p, P (.identifier st.name)) (h : ∀ st ∈ p, ∀ l ∈ st.leaves, P l) {ls : List Lowered}
  (hrun : (program p).run s = (.ok ls, t))
include hname h hrun

/-- What a program contributes is emitted statement by statement. -/
theorem program_emits : Emitted P s (ls.flatMap Lowered.code) t :=
  program_walk Emitted.walk (fun hcontributes => hcontributes.emitted) hname h hrun

theorem named_of_program : ∀ l ∈ ls, l.Named P := by
  induction p generalizing s ls with
  | nil =>
    cases hrun
    simp
  | cons st p ih =>
    obtain ⟨hst, hp⟩ := List.forall_mem_cons.1 hname
    obtain ⟨hleaves, hrest⟩ := List.forall_mem_cons.1 h
    obtain ⟨l, ls', u, hl, hls, rfl⟩ := program_cons_eq_ok hrun
    exact List.forall_mem_cons.2 ⟨(statement_walk Emitted.walk hst hleaves s l u hl).named hst, ih hp hrest hls⟩

end Lower

end ChainCompiler
