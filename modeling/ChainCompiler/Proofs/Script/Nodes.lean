import ChainCompiler.Script.Basic

/-! The nodes of a script: each expression that occurs in it, at any depth. -/

namespace ChainCompiler.Script

mutual

def Expr.nodes : Expr → List Expr
  | .ident name => [.ident name]
  | .str text => [.str text]
  | .number value => [.number value]
  | .bool value => [.bool value]
  | .null => [.null]
  | .array items => .array items :: itemNodes items
  | .object fields => .object fields :: fieldNodes fields
  | .new className args => .new className args :: itemNodes args
  | .call callee args => .call callee args :: (callee.nodes ++ itemNodes args)
  | .member owner property => .member owner property :: owner.nodes
  | .await value => .await value :: value.nodes

def itemNodes : List Expr → List Expr
  | [] => []
  | e :: es => e.nodes ++ itemNodes es

def fieldNodes : List (String × Expr) → List Expr
  | [] => []
  | (_, e) :: fields => e.nodes ++ fieldNodes fields

end

theorem itemNodes_eq_flatMap (es : List Expr) : itemNodes es = es.flatMap Expr.nodes := by
  induction es with
  | nil => rfl
  | cons e es ih => rw [itemNodes, ih, List.flatMap_cons]

@[simp] theorem itemNodes_append (es fs : List Expr) : itemNodes (es ++ fs) = itemNodes es ++ itemNodes fs := by
  simp only [itemNodes_eq_flatMap, List.flatMap_append]

theorem mem_itemNodes_of_perm {es fs : List Expr} (h : es.Perm fs) {n : Expr} :
    n ∈ itemNodes es ↔ n ∈ itemNodes fs := by
  simp only [itemNodes_eq_flatMap, List.mem_flatMap, h.mem_iff]

theorem fieldNodes_eq (fields : List (String × Expr)) : fieldNodes fields = itemNodes (fields.map Prod.snd) := by
  induction fields with
  | nil => rfl
  | cons f fields ih => rw [fieldNodes, ih, List.map_cons, itemNodes]

def Expr.parts : Expr → List Expr
  | .array items => items
  | .object fields => fields.map Prod.snd
  | .new _ args => args
  | .call callee args => callee :: args
  | .member owner _ => [owner]
  | .await value => [value]
  | _ => []

theorem Expr.nodes_eq_cons (e : Expr) : e.nodes = e :: itemNodes e.parts := by
  cases e with
  | object fields => rw [nodes, parts, fieldNodes_eq]
  | member owner property => rw [nodes, parts, itemNodes, itemNodes, List.append_nil]
  | await value => rw [nodes, parts, itemNodes, itemNodes, List.append_nil]
  | _ => rfl

theorem mem_itemNodes_cons {e n : Expr} {es : List Expr} :
    n ∈ itemNodes (e :: es) ↔ n = e ∨ n ∈ itemNodes (e.parts ++ es) := by
  rw [itemNodes, e.nodes_eq_cons, itemNodes_append, List.cons_append, List.mem_cons]

mutual

/-- What a node inherits from the expressions right below it, given `Q` of the node, holds of all expressions whose nodes
satisfy `Q`. -/
theorem Expr.of_nodes {P Q : Expr → Prop} (h : ∀ e, Q e → (∀ x ∈ e.parts, P x) → P e) :
    ∀ e : Expr, (∀ n ∈ e.nodes, Q n) → P e
  | .ident _, hn => h _ (hn _ List.mem_cons_self) (List.forall_mem_nil P)
  | .str _, hn => h _ (hn _ List.mem_cons_self) (List.forall_mem_nil P)
  | .number _, hn => h _ (hn _ List.mem_cons_self) (List.forall_mem_nil P)
  | .bool _, hn => h _ (hn _ List.mem_cons_self) (List.forall_mem_nil P)
  | .null, hn => h _ (hn _ List.mem_cons_self) (List.forall_mem_nil P)
  | .array items, hn => h _ (hn _ List.mem_cons_self) (of_itemNodes h items (List.forall_mem_cons.1 hn).2)
  | .object fields, hn => h _ (hn _ List.mem_cons_self) (of_fieldNodes h fields (List.forall_mem_cons.1 hn).2)
  | .new _ args, hn => h _ (hn _ List.mem_cons_self) (of_itemNodes h args (List.forall_mem_cons.1 hn).2)
  | .call callee args, hn => by
    obtain ⟨hcallee, hargs⟩ := List.forall_mem_append.1 (List.forall_mem_cons.1 hn).2
    exact h _ (hn _ List.mem_cons_self)
      (List.forall_mem_cons.2 ⟨Expr.of_nodes h callee hcallee, of_itemNodes h args hargs⟩)
  | .member owner _, hn =>
    h _ (hn _ List.mem_cons_self) (List.forall_mem_singleton.2 (Expr.of_nodes h owner (List.forall_mem_cons.1 hn).2))
  | .await value, hn =>
    h _ (hn _ List.mem_cons_self) (List.forall_mem_singleton.2 (Expr.of_nodes h value (List.forall_mem_cons.1 hn).2))

theorem of_itemNodes {P Q : Expr → Prop} (h : ∀ e, Q e → (∀ x ∈ e.parts, P x) → P e) :
    ∀ es : List Expr, (∀ n ∈ itemNodes es, Q n) → ∀ x ∈ es, P x
  | [], _ => List.forall_mem_nil P
  | e :: es, hn => by
    obtain ⟨he, hes⟩ := List.forall_mem_append.1 hn
    exact List.forall_mem_cons.2 ⟨Expr.of_nodes h e he, of_itemNodes h es hes⟩

theorem of_fieldNodes {P Q : Expr → Prop} (h : ∀ e, Q e → (∀ x ∈ e.parts, P x) → P e) :
    ∀ fields : List (String × Expr), (∀ n ∈ fieldNodes fields, Q n) → ∀ x ∈ fields.map Prod.snd, P x
  | [], _ => List.forall_mem_nil P
  | (_, e) :: fields, hn => by
    obtain ⟨he, hfields⟩ := List.forall_mem_append.1 hn
    exact List.forall_mem_cons.2 ⟨Expr.of_nodes h e he, of_fieldNodes h fields hfields⟩

end

mutual

def Stmt.exprs : Stmt → List Expr
  | .imports .. => []
  | .const _ value => [value]
  | .expr value => [value]
  | .result value => [value]
  | .comment _ => []
  | .blank => []
  | .function _ _ body => exprsOf body

def exprsOf : List Stmt → List Expr
  | [] => []
  | s :: ss => s.exprs ++ exprsOf ss

end

theorem exprsOf_eq_flatMap (ss : List Stmt) : exprsOf ss = ss.flatMap Stmt.exprs := by
  induction ss with
  | nil => rfl
  | cons s ss ih => rw [exprsOf, ih, List.flatMap_cons]

@[simp] theorem exprsOf_append (ss us : List Stmt) : exprsOf (ss ++ us) = exprsOf ss ++ exprsOf us := by
  simp only [exprsOf_eq_flatMap, List.flatMap_append]

@[simp] theorem exprsOf_map_expr (es : List Expr) : exprsOf (es.map .expr) = es := by
  rw [exprsOf_eq_flatMap, List.flatMap_map]
  exact List.flatMap_singleton' es

def nodesOf (ss : List Stmt) : List Expr := itemNodes (exprsOf ss)

/-- One of the expressions makes an instance of the class, at some depth. -/
def Constructs (c : String) (es : List Expr) : Prop := ∃ args, Expr.new c args ∈ itemNodes es

section Constructs

variable {c : String}

@[simp] theorem not_constructs_nil : ¬Constructs c [] := by simp [Constructs, itemNodes]

@[simp] theorem constructs_append {es fs : List Expr} :
    Constructs c (es ++ fs) ↔ Constructs c es ∨ Constructs c fs := by
  simp only [Constructs, itemNodes_append, List.mem_append, exists_or]

/-- An instance at the head of an expression, or below it. -/
theorem constructs_cons {e : Expr} {es : List Expr} :
    Constructs c (e :: es) ↔ (∃ args, e = .new c args) ∨ Constructs c (e.parts ++ es) := by
  simp only [Constructs, mem_itemNodes_cons, exists_or, eq_comm]

theorem constructs_of_perm {es fs : List Expr} (h : es.Perm fs) : Constructs c es ↔ Constructs c fs := by
  simp only [Constructs, mem_itemNodes_of_perm h]

theorem constructs_new {d : String} {args es : List Expr} :
    Constructs c (.new d args :: es) ↔ c = d ∨ Constructs c (args ++ es) := by
  simp [constructs_cons, Expr.parts, eq_comm]

theorem constructs_method {e : Expr} {name : String} {args es : List Expr} :
    Constructs c (e.method name args :: es) ↔ Constructs c (e :: (args ++ es)) := by
  simp [Expr.method, constructs_cons, Expr.parts]

theorem constructs_flatMap {α : Type} {xs : List α} {f : α → List Expr} :
    Constructs c (xs.flatMap f) ↔ ∃ x ∈ xs, Constructs c (f x) := by
  induction xs with
  | nil => simp
  | cons x xs ih => simp [ih]

theorem constructs_exprsOf {ss : List Stmt} : Constructs c (exprsOf ss) ↔ ∃ s ∈ ss, Constructs c s.exprs := by
  rw [exprsOf_eq_flatMap, constructs_flatMap]

end Constructs

end ChainCompiler.Script
