import ChainCompiler.Proofs.Leaves
import ChainCompiler.Proofs.Lowering.Arrangement
import ChainCompiler.Proofs.Script.Nodes

/-! What lowering does, said once for all that is proved of the code it emits. A relation between two scopes and the
expressions emitted between them that is closed under each kind of emission holds of whatever an expression, a statement
or a program is lowered to. -/

namespace ChainCompiler

open Lower (Ensures)
open Component (Attachment)

def components : List String :=
  ["Builtin", "Chain", "ChainContext", "Input", "Model", "Prompt", "Router", "StringOutput", "Tool"]

def methods : List String := ["addNode", "bind_tool", "bind_structure"]

section Routers

variable (R : Scope → List Script.Expr → Scope → Prop) (label : String)

inductive Routes : Nat → Scope → List Script.Expr → Scope → Prop
  | nil {index s} : Routes index s [] s
  | cons {index s t u w c nodes rs} : R s [c] t → R (t.note "Chain") nodes u → Routes (index + 1) u rs w →
      Routes index s (.object [("when", c), ("then", chained (label ++ "_case_" ++ index.repr) nodes)] :: rs) w

inductive Fallback : Scope → Script.Expr → Scope → Prop
  | none {s} : Fallback s .null s
  | some {s t nodes} : R (s.note "Chain") nodes t → Fallback s (chained (label ++ "_default") nodes) t

end Routers

/-- The relation is closed under all that lowering emits, if the leaves of programs that get into it satisfy `P`. -/
structure Walk (P : Expr → Prop) (R : Scope → List Script.Expr → Scope → Prop) : Prop where
  silent {s t} : t.classes = s.classes → t.tools = s.tools → t.routers = s.routers → R s [] t
  append {s t u es fs} : R s es t → R t fs u → R s (es ++ fs) u
  name {s n} : P (.identifier n) → R s [.ident n] s
  str {s text} : R s [.str text] s
  number {s v} : P (.number v) → R s [.number v] s
  bool {s b} : R s [.bool b] s
  null {s} : R s [.null] s
  array {s t es} : R s es t → R s [.array es] t
  object {s t fs} : R s (fs.map Prod.snd) t → R s [.object fs] t
  new {s t c es} : c ∈ components → c ≠ "Chain" → R (s.note c) es t → R s [.new c es] t
  router {s t u w config rs fallback} : R (s.note "Router") [config] t → Routes R t.count.label 0 t.count rs u →
    Fallback R t.count.label u fallback w → R s [.new "Router" [config, .array rs, fallback]] w
  tool {s t e n} : R s [e] t → P (.identifier n) → R s [e.method "bind_tool" [.ident n]] (t.register n)
  method {s t u m e a} : m ∈ methods → m ≠ "bind_tool" → R s [e] t → R t [a] u → R s [e.method m [a]] u

/-- The attachments of modifiers, with what each does to the scope. -/
inductive Calls (P : Expr → Prop) (R : Scope → List Script.Expr → Scope → Prop) :
    Scope → List Attachment → Scope → Prop
  | nil {s} : Calls P R s [] s
  | tool {s t n as} : P (.identifier n) → Calls P R (s.register n) as t →
      Calls P R s (("bind_tool", .ident n) :: as) t
  | schema {s t u v as} : R s [v] t → Calls P R t as u → Calls P R s (("bind_structure", v) :: as) u

/-- What the memory of a chain is lowered to, if it has one. -/
inductive Remembers (R : Scope → List Script.Expr → Scope → Prop) : Scope → Option Script.Expr → Scope → Prop
  | none {s} : Remembers R s none s
  | some {s t config} : R s [config] t → Remembers R s (some config) (t.note "ChainContext")

/-- What a statement with a name contributes: a constant with calls on it, which for a chain add its nodes. -/
inductive Contributes (R : Scope → List Script.Expr → Scope → Prop) (name : String) : Scope → Lowered → Scope → Prop
  | definition {s t base calls} : R s (base :: calls) t →
      Contributes R name s ⟨.const name base :: calls.map .expr, none⟩ t
  | chain {s t u calls memory} : R (s.note "Chain") calls t → Remembers R t memory u →
      Contributes R name s ⟨.const name (.new "Chain" [.str name]) :: calls.map .expr, some ⟨name, memory⟩⟩ u
  | schema {s fields} : Contributes R name s ⟨[.const name (Component.schemaOf fields)], none⟩ s

variable {P : Expr → Prop} {R : Scope → List Script.Expr → Scope → Prop} {s t u : Scope}

theorem Calls.append {as bs : List Attachment} (h : Calls P R s as t) (h' : Calls P R t bs u) :
    Calls P R s (as ++ bs) u := by
  induction h with
  | nil => exact h'
  | tool hn _ ih => exact .tool hn (ih h')
  | schema hv _ ih => exact .schema hv (ih h')

namespace Walk

variable (hR : Walk P R)
include hR

theorem nil (s : Scope) : R s [] s := hR.silent rfl rfl rfl

theorem cons {e : Script.Expr} {es : List Script.Expr} (he : R s [e] t) (hes : R t es u) : R s (e :: es) u :=
  hR.append he hes

theorem strings (s : Scope) (texts : List String) : R s (texts.map .str) s := by
  induction texts with
  | nil => exact hR.nil s
  | cons text texts ih => exact hR.cons hR.str ih

theorem schemaOf (s : Scope) (fields : List (String × String)) : R s [Component.schemaOf fields] s := by
  have hproperties : R s (fields.map fun f => .object [("type", .str f.2)]) s := by
    induction fields with
    | nil => exact hR.nil s
    | cons f fields ih => exact hR.cons (hR.object hR.str) ih
  have hnames := hR.strings s (fields.map Prod.fst)
  rw [List.map_map] at hnames
  refine hR.object (hR.cons hR.str (hR.cons (hR.object ?_) (hR.array hnames)))
  rw [List.map_map]
  exact hproperties

theorem templateArgs (s : Scope) (text : String) : R s (Component.templateArgs text) s := by
  unfold Component.templateArgs
  dsimp only
  split
  · exact hR.str
  · exact hR.cons hR.str (hR.array (hR.strings s _))

theorem endpoint {n : String} (h : Lower.isEndpoint n = true) (s : Scope) : R s [.new n []] (s.note n) := by
  simp only [Lower.isEndpoint, Bool.or_eq_true, beq_iff_eq] at h
  rcases h with rfl | rfl
  · exact hR.new (by decide) (by decide) (hR.nil _)
  · exact hR.new (by decide) (by decide) (hR.nil _)

theorem reference {n : String} (h : P (.identifier n)) (checked : Bool) (s : Scope) :
    Ensures (Lower.reference n checked) s fun e t => R s [e] t := by
  intro e t hrun
  cases hn : Lower.isEndpoint n with
  | true =>
    rw [Lower.reference_endpoint hn] at hrun
    cases hrun
    exact hR.endpoint hn s
  | false =>
    rw [Lower.reference_name hn] at hrun
    cases hrun
    refine hR.cons (hR.name h) (hR.silent ?_ ?_ ?_) <;> split <;> rfl

/-- The attachments chained onto what is there. -/
theorem chained {e : Script.Expr} {as : List Attachment} (he : R s [e] t) (has : Calls P R t as u) :
    R s [as.foldl (fun e a => e.method a.1 [a.2]) e] u := by
  induction has generalizing e with
  | nil => exact he
  | tool hn _ ih => exact ih (hR.tool he hn)
  | schema hv _ ih => exact ih (hR.method (m := "bind_structure") (by decide) (by decide) he hv)

/-- The attachments called on a name, one by one. -/
theorem called {name : String} (hname : P (.identifier name)) {as : List Attachment} (has : Calls P R s as t) :
    R s (as.map fun a => (Script.Expr.ident name).method a.1 [a.2]) t := by
  induction has with
  | nil => exact hR.nil _
  | tool hn _ ih => exact hR.cons (hR.tool (hR.name hname) hn) ih
  | schema hv _ ih =>
    exact hR.cons (hR.method (m := "bind_structure") (by decide) (by decide) (hR.name hname) hv) ih

end Walk

/-- The expression is lowered along the relation, and its leaves satisfy `P`. -/
structure Expr.Walked (P : Expr → Prop) (R : Scope → List Script.Expr → Scope → Prop) (e : Expr) : Prop where
  leaves : ∀ l ∈ e.leaves, P l
  bound : ∀ s, Ensures e.bound s fun b t => ∃ u, R s [b.base] u ∧ Calls P R u b.attachments t

theorem Arranged.mem_components {args used : List Argument} {component : String} {vs out : List Script.Expr}
    (h : Arranged args component used vs out) : component ∈ components ∧ component ≠ "Chain" := by
  cases h with
  | endpoint hendpoint _ =>
    simp only [Lower.isEndpoint, Bool.or_eq_true, beq_iff_eq] at hendpoint
    rcases hendpoint with rfl | rfl <;> decide
  | _ => decide

section Expressions

variable (hR : Walk P R)
include hR

namespace Expr.Walked

variable {e : Expr}

theorem lowerValue (h : e.Walked P R) (s : Scope) : Ensures e.lowerValue s fun v t => R s [v] t := by
  rw [lowerValue_eq]
  refine .map fun b t hrun => ?_
  obtain ⟨u, hbase, hcalls⟩ := h.bound s b t hrun
  exact hR.chained hbase hcalls

theorem lowerStep (h : e.Walked P R) (s : Scope) : Ensures e.lowerStep s fun v t => R s [v] t := by
  unfold Expr.lowerStep asStep
  split
  · next n => exact hR.reference (h.leaves _ (by simp [Expr.leaves])) true s
  · exact h.lowerValue hR s
  · exact h.lowerValue hR s
  · exact .fail

theorem asTarget (h : e.Walked P R) (s : Scope) :
    Ensures (asTarget e e.bound) s fun b t => ∃ u, R s [b.base] u ∧ Calls P R u b.attachments t := by
  unfold ChainCompiler.asTarget
  split
  · next n =>
    refine .map fun v t hrun => ⟨t, ?_, .nil⟩
    exact hR.reference (h.leaves _ (by simp [Expr.leaves])) true s v t hrun
  · exact h.bound s
  · exact h.bound s
  · exact .fail

end Expr.Walked

/-- What is run in order is emitted in order. -/
theorem RunInOrder.walk {xs : List (Lower Script.Expr)} (hxs : ∀ x ∈ xs, ∀ s, Ensures x s fun v t => R s [v] t)
    {vs : List Script.Expr} (h : RunInOrder xs s vs t) : R s vs t := by
  induction h with
  | nil => exact hR.nil _
  | cons hx _ ih =>
    obtain ⟨hhead, htail⟩ := List.forall_mem_cons.1 hxs
    exact hR.cons (hhead _ _ _ hx) (ih htail)

variable {args used : List Argument} {vs : List Script.Expr}

theorem arguments_walk (h : ∀ a ∈ args, a.value.Walked P R) (hused : ∀ a ∈ used, a ∈ args)
    (hrun : RunInOrder (used.map Argument.lower) s vs t) : R s vs t := by
  refine hrun.walk hR ?_
  exact List.forall_mem_map.2 fun a ha => (h a (hused a ha)).lowerValue hR

theorem steps_walk {es : List Expr} (h : ∀ e ∈ es, e.Walked P R)
    (hrun : RunInOrder (es.map Expr.lowerStep) s vs t) : R s vs t :=
  hrun.walk hR (List.forall_mem_map.2 fun e he => (h e he).lowerStep hR)

/-- The nodes of a chain, added one by one. -/
theorem nodes_walk {name : String} (hname : P (.identifier name)) {es : List Expr} (h : ∀ e ∈ es, e.Walked P R)
    (hrun : RunInOrder (es.map Expr.lowerStep) s vs t) :
    R s (vs.map fun n => (Script.Expr.ident name).method "addNode" [n]) t := by
  induction es generalizing s vs with
  | nil =>
    cases hrun
    exact hR.nil _
  | cons e es ih =>
    obtain ⟨he, hes⟩ := List.forall_mem_cons.1 h
    cases hrun with
    | cons hnode hrun =>
      have hnode := he.lowerStep hR _ _ _ hnode
      exact hR.cons (hR.method (by decide) (by decide) (hR.name hname) hnode) (ih hes hrun)

theorem Configured.walk {config : Script.Expr} (h : ∀ a ∈ args, a.value.Walked P R)
    (hconfigured : Configured args used vs config) (hrun : RunInOrder (used.map Argument.lower) s vs t) :
    R s [config] t := by
  have hvs := arguments_walk hR h hconfigured.mem_args hrun
  cases hconfigured with
  | sole _ => exact hvs
  | fields _ _ => exact hR.object hvs

/-- An argument that may be absent is emitted, or what stands for it. -/
theorem optional_walk {o : Option Argument} {v : Option Script.Expr} {absent : Script.Expr} {xs : List (Lower Script.Expr)}
    (h : ∀ a ∈ o, a.value.Walked P R) (habsent : ∀ s, R s [absent] s) (hv : v.isSome = o.isSome)
    (hrun : RunInOrder (o.toList.map Argument.lower ++ xs) s (v.toList ++ vs) t) :
    ∃ u, R s [v.getD absent] u ∧ RunInOrder xs u vs t := by
  cases o with
  | none =>
    cases v with
    | none => exact ⟨s, habsent s, hrun⟩
    | some v => cases hv
  | some a =>
    cases v with
    | none => cases hv
    | some v =>
      cases hrun with
      | cons ha hrun => exact ⟨_, (h a rfl).lowerValue hR _ _ _ ha, hrun⟩

/-- What stands for absent arguments is emitted where they would be. -/
theorem Arranged.walk {component : String} {out : List Script.Expr} (h : ∀ a ∈ args, a.value.Walked P R)
    (harranged : Arranged args component used vs out) (hrun : RunInOrder (used.map Argument.lower) s vs t) :
    R s out t := by
  have hmem := harranged.mem_args
  cases harranged with
  | empty _ =>
    cases hrun
    exact hR.nil _
  | model hconfigured => exact hconfigured.walk hR h hrun
  | @tool name handler description schema n v d c _ _ _ _ _ hd hc =>
    simp only [List.mem_cons, List.mem_append, Option.mem_toList] at hmem
    rw [List.map_cons, List.map_append, List.map_cons] at hrun
    cases hrun with
    | cons hname hrun =>
    obtain ⟨u, hdescription, hrun⟩ :=
      optional_walk hR (fun a ha => h a (hmem a (.inr (.inl ha)))) (fun _ => hR.str) hd hrun
    cases hrun with
    | cons hhandler hrun =>
    rw [← List.append_nil (List.map _ _), ← List.append_nil c.toList] at hrun
    obtain ⟨w, hschema, hrun⟩ :=
      optional_walk hR (fun a ha => h a (hmem a (.inr (.inr (.inr ha))))) (fun s => hR.schemaOf s []) hc hrun
    cases hrun
    have hname := (h name (hmem name (.inl rfl))).lowerValue hR _ _ _ hname
    have hhandler := (h handler (hmem handler (.inr (.inr (.inl rfl))))).lowerValue hR _ _ _ hhandler
    exact hR.cons hname (hR.cons hdescription (hR.cons hhandler hschema))
  | text _ _ =>
    cases hrun
    exact hR.templateArgs _ _
  | placeholder _ _ =>
    cases hrun
    exact hR.cons hR.str (hR.array hR.str)
  | prompt _ _ => exact arguments_walk hR h hmem hrun
  | @builtin a kind fs _ _ _ =>
    have hfields := arguments_walk hR h hmem hrun
    refine hR.cons hR.str ?_
    cases fs with
    | nil => exact hfields
    | cons f fs => exact hR.object hfields
  | router hconfigured =>
    exact hR.cons (hconfigured.walk hR h hrun) (hR.cons (hR.array (hR.nil _)) hR.null)
  | endpoint _ _ =>
    cases hrun
    exact hR.nil _

theorem Routed.walk {label : String} {index : Nat} {cases : List (Expr × List Expr)}
    (h : ∀ x ∈ cases, x.1.Walked P R ∧ ∀ e ∈ x.2, e.Walked P R) (hrouted : Routed label index cases s vs t) :
    Routes R label index s vs t := by
  induction hrouted with
  | nil => exact .nil
  | cons hcondition haction _ ih =>
    obtain ⟨⟨hc, hnodes⟩, hcases⟩ := List.forall_mem_cons.1 h
    exact .cons (hc.lowerValue hR _ _ _ hcondition) (steps_walk hR hnodes haction) (ih hcases)

theorem FellBack.walk {label : String} {fallback : Option (List Expr)} {v : Script.Expr}
    (h : ∀ action ∈ fallback, ∀ e ∈ action, e.Walked P R) (hfellBack : FellBack label fallback s v t) :
    Fallback R label s v t := by
  cases hfellBack with
  | none => exact .none
  | some haction => exact .some (steps_walk hR (h _ rfl) haction)

theorem Call.walk {c : Call} (h : c.Holds (Expr.Walked P R)) (s : Scope) : Ensures c.lower s fun v t => R s [v] t := by
  intro v t hrun
  rcases lower_cases hrun with ⟨-, hrouter⟩ | ⟨used, vs, out, harranged, hvs, rfl⟩
  · obtain ⟨used, vs, config, u, rs, w, fallback, hconfigured, hvs, hrouted, hfellBack, rfl⟩ := hrouter
    exact hR.router (hconfigured.walk hR h.args hvs) (hrouted.walk hR h.cases) (hfellBack.walk hR h.fallback)
  · obtain ⟨hcomponent, hchain⟩ := harranged.mem_components
    exact hR.new hcomponent hchain (harranged.walk hR h.args hvs)

theorem attachments_walk {m : Call} (h : m.Holds (Expr.Walked P R)) (s : Scope) :
    Ensures m.attachments s fun as t => Calls P R s as t := by
  intro as t hrun
  cases attachments_attaches m s as t hrun with
  | @tools names _ hargument =>
    obtain ⟨a, ha, hvalue⟩ := m.exists_of_argument? hargument
    have hleaves := (h.args a ha).leaves
    rw [hvalue, Expr.leaves, itemLeaves_eq_flatMap, List.flatMap_map] at hleaves
    clear hrun hargument hvalue
    induction names generalizing s with
    | nil => exact .nil
    | cons n names ih =>
      rw [List.flatMap_cons, List.forall_mem_append] at hleaves
      exact .tool (hleaves.1 _ (by simp [Expr.leaves])) (ih _ hleaves.2)
  | named _ hargument hv =>
    obtain ⟨a, ha, hvalue⟩ := m.exists_of_argument? hargument
    have hleaves := (h.args a ha).leaves
    rw [hvalue] at hleaves
    exact .schema (hR.reference (hleaves _ (by simp [Expr.leaves])) true _ _ _ hv) .nil
  | given _ hargument hv =>
    obtain ⟨a, ha, hvalue⟩ := m.exists_of_argument? hargument
    have hwalked := h.args a ha
    rw [hvalue] at hwalked
    exact .schema (hwalked.lowerValue hR _ _ _ hv) .nil

end Expressions

section Leaves

variable {Q : Expr → Prop}

theorem Call.leaves_eq (c : Call) :
    c.leaves = argumentLeaves c.args ++ (caseLeaves c.block.cases ++ c.block.fallback.elim [] itemLeaves) := by
  obtain ⟨name, args, _ | ⟨cases, _ | action⟩⟩ := c <;> simp [leaves, RouterBlock.leaves, block, caseLeaves]

/-- What holds of expressions with such leaves holds of the parts of a call with such leaves. -/
theorem Call.Holds.of_leaves {c : Call} (h : c.Holds fun e => (∀ l ∈ e.leaves, P l) → Q e) (hc : ∀ l ∈ c.leaves, P l) :
    c.Holds Q := by
  rw [Call.leaves_eq, List.forall_mem_append, List.forall_mem_append, argumentLeaves_eq_flatMap,
    caseLeaves_eq_flatMap] at hc
  obtain ⟨hargs, hcases, hfallback⟩ := hc
  refine ⟨fun a ha => h.args a ha fun l hl => hargs l (List.mem_flatMap.2 ⟨a, ha, hl⟩), fun x hx => ?_, ?_⟩
  · have hleaves : ∀ l ∈ x.1.leaves ++ itemLeaves x.2, P l := fun l hl => hcases l (List.mem_flatMap.2 ⟨x, hx, hl⟩)
    rw [List.forall_mem_append, itemLeaves_eq_flatMap] at hleaves
    refine ⟨(h.cases x hx).1 hleaves.1, fun e he => (h.cases x hx).2 e he fun l hl => ?_⟩
    exact hleaves.2 l (List.mem_flatMap.2 ⟨e, he, hl⟩)
  · intro action haction e he
    rw [Option.mem_def.1 haction, Option.elim_some, itemLeaves_eq_flatMap] at hfallback
    exact h.fallback action haction e he fun l hl => hfallback l (List.mem_flatMap.2 ⟨e, he, hl⟩)

end Leaves

/-- Lowering an expression keeps to any relation that is closed under what it can emit. -/
theorem Expr.walked (hR : Walk P R) : ∀ e : Expr, (∀ l ∈ e.leaves, P l) → e.Walked P R := by
  refine Expr.of_parts fun e h hleaves => ⟨hleaves, ?_⟩
  have hplain : ∀ {x : Lower Script.Expr}, (∀ s, Ensures x s fun v t => R s [v] t) → ∀ s,
      Ensures (Bound.plain <$> x) s fun b t => ∃ u, R s [b.base] u ∧ Calls P R u b.attachments t :=
    fun hx s => .map fun v t hrun => ⟨t, hx s v t hrun, .nil⟩
  cases e with
  | bind target m =>
    rw [Expr.leaves, List.forall_mem_append] at hleaves
    intro s
    refine .bind ((h.1 hleaves.1).asTarget hR s) fun b t hb => ?_
    refine .bind (attachments_walk hR (h.2.of_leaves hleaves.2) t) fun as u has => .pure ?_
    obtain ⟨w, hbase, hcalls⟩ := hb
    exact ⟨w, hbase, hcalls.append has⟩
  | call c =>
    refine hplain fun s => ?_
    rw [lowerValue_call]
    exact Call.walk hR (h.of_leaves hleaves) s
  | identifier name =>
    refine hplain fun s => ?_
    rw [lowerValue_identifier]
    exact hR.reference (hleaves _ (by simp [Expr.leaves])) false s
  | list items =>
    refine hplain fun s v t hrun => ?_
    rw [Expr.leaves, itemLeaves_eq_flatMap] at hleaves
    obtain ⟨vs, hvs, rfl⟩ := lowerValue_list hrun
    refine hR.array (hvs.walk hR (List.forall_mem_map.2 fun e he => ?_))
    exact (h e he fun l hl => hleaves l (List.mem_flatMap.2 ⟨e, he, hl⟩)).lowerValue hR
  | object entries =>
    refine hplain fun s v t hrun => ?_
    rw [Expr.leaves, entryLeaves_eq_flatMap] at hleaves
    obtain ⟨fs, hfs, rfl⟩ := lowerValue_object hrun
    refine hR.object (hfs.walk hR (List.forall_mem_map.2 fun x hx => ?_))
    exact (h x hx fun l hl => hleaves l (List.mem_flatMap.2 ⟨x, hx, hl⟩)).lowerValue hR
  | string text => exact hplain fun _ => .pure hR.str
  | number value => exact hplain fun _ => .pure (hR.number (hleaves _ (by simp [Expr.leaves])))
  | boolean value => exact hplain fun _ => .pure hR.bool
  | templateVar name => exact hplain fun _ => .pure hR.str

namespace Lower

variable (hR : Walk P R) {st : Statement}
include hR

theorem definition_walk (hname : P (.identifier st.name)) {value : Expr} (h : ∀ l ∈ value.leaves, P l)
    (hst : st.declaration = .definition value) (s : Scope) :
    Ensures (statement st) s fun l t => Contributes R st.name (s.entered st) l t := by
  intro l t hrun
  obtain ⟨b, hb, rfl⟩ := definitionValue_of_statement hst hrun
  have hbound : ∃ u, R (s.entered st) [b.base] u ∧ Calls P R u b.attachments t := by
    unfold definitionValue at hb
    split at hb
    · next n =>
      obtain ⟨v, hv, rfl⟩ := map_eq_ok.1 hb
      exact ⟨t, hR.reference (h _ (by simp [Expr.leaves])) true _ _ _ hv, .nil⟩
    · exact (Expr.walked hR value h).bound _ _ _ hb
  obtain ⟨u, hbase, hcalls⟩ := hbound
  have hcontributes : Contributes R st.name (s.entered st) _ t := .definition (hR.cons hbase (hR.called hname hcalls))
  rwa [List.map_map] at hcontributes

theorem memory_walk {context : Call} (h : ∀ l ∈ context.leaves, P l) (s : Scope) :
    Ensures (memory context) s fun config t => Remembers R s (some config) t := by
  intro config t hrun
  obtain ⟨used, vs, u, hconfigured, hvs, rfl⟩ := configured_of_memory hrun
  rw [Call.leaves_eq, List.forall_mem_append, argumentLeaves_eq_flatMap] at h
  refine .some (hconfigured.walk hR (fun a ha => Expr.walked hR a.value fun l hl => ?_) hvs)
  exact h.1 l (List.mem_flatMap.2 ⟨a, ha, hl⟩)

theorem chain_walk (hname : P (.identifier st.name)) {steps : List Expr} {context : Option Call}
    (hsteps : ∀ l ∈ itemLeaves steps, P l) (hcontext : ∀ m ∈ context, ∀ l ∈ m.leaves, P l)
    (hst : st.declaration = .chain steps context) (s : Scope) :
    Ensures (statement st) s fun l t => Contributes R st.name (s.entered st) l t := by
  intro l t hrun
  obtain ⟨nodes, memory, u, hnodes, hmemory, rfl⟩ := chain_of_statement hst hrun
  have hwalked : ∀ e ∈ steps, e.Walked P R := by
    rw [itemLeaves_eq_flatMap] at hsteps
    exact fun e he => Expr.walked hR e fun l hl => hsteps l (List.mem_flatMap.2 ⟨e, he, hl⟩)
  have hcalls := nodes_walk hR hname hwalked hnodes
  have hremembers : Remembers R u memory t := by
    rcases context with _ | context
    · cases hmemory
      exact .none
    · obtain ⟨config, rfl, hconfig⟩ := mapM_memory_some hmemory
      exact memory_walk hR (hcontext context rfl) u config t hconfig
  have hcontributes : Contributes R st.name (s.entered st) _ t := .chain hcalls hremembers
  rwa [List.map_map] at hcontributes

theorem statement_walk (hname : P (.identifier st.name)) (h : ∀ l ∈ st.leaves, P l) (s : Scope) :
    Ensures (statement st) s fun l t => Contributes R st.name (s.entered st) l t := by
  unfold Statement.leaves at h
  split at h
  · next value hst => exact definition_walk hR hname h hst s
  · next hst => exact chain_walk hR hname h (by simp) hst s
  · next hst =>
    rw [List.forall_mem_append] at h
    exact chain_walk hR hname h.1 (by simpa using h.2) hst s
  · next fields hst =>
    intro l t hrun
    obtain ⟨rfl, rfl⟩ := statement_schema hst hrun
    exact .schema

/-- A program keeps to the relation if what each statement contributes does. -/
theorem program_walk {code : Lowered → List Script.Expr}
    (hcode : ∀ {name s l t}, Contributes R name s l t → R s (code l) t) {p : Program}
    (hname : ∀ st ∈ p, P (.identifier st.name)) (h : ∀ st ∈ p, ∀ l ∈ st.leaves, P l) {ls : List Lowered}
    (hrun : (program p).run s = (.ok ls, t)) : R s (ls.flatMap code) t := by
  induction p generalizing s ls with
  | nil =>
    cases hrun
    exact hR.nil _
  | cons st p ih =>
    obtain ⟨hst, hp⟩ := List.forall_mem_cons.1 hname
    obtain ⟨hleaves, hrest⟩ := List.forall_mem_cons.1 h
    obtain ⟨l, ls', u, hl, hls, rfl⟩ := program_cons_eq_ok hrun
    have hentered : R s [] (s.entered st) := hR.silent rfl rfl rfl
    have hcontributes := hcode (statement_walk hR hst hleaves s l u hl)
    exact hR.append (hR.append hentered hcontributes) (ih hp hrest hls)

end Lower

end ChainCompiler
