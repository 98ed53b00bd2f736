import ChainCompiler.Proofs.Script.Nodes

/-! The instances that a script makes of a class, with their arguments. Those that stand inside expressions are all but
the ones that constants are declared as. -/

namespace ChainCompiler.Script

variable {c : String}

def Expr.instance? (c : String) : Expr → Option (List Expr)
  | .new d args => if d = c then some args else none
  | _ => none

/-- The arguments of each instance of a class in the expressions, at any depth. -/
def instances (c : String) (es : List Expr) : List (List Expr) := (itemNodes es).filterMap (Expr.instance? c)

@[simp] theorem instances_nil : instances c [] = [] := rfl

@[simp] theorem instances_append (es fs : List Expr) : instances c (es ++ fs) = instances c es ++ instances c fs := by
  simp [instances]

theorem instances_cons (e : Expr) (es : List Expr) :
    instances c (e :: es) = (e.instance? c).toList ++ (instances c e.parts ++ instances c es) := by
  unfold instances
  rw [itemNodes, e.nodes_eq_cons, List.cons_append, List.filterMap_cons, List.filterMap_append]
  cases e.instance? c <;> rfl

theorem instances_flatMap {α : Type} (xs : List α) (f : α → List Expr) :
    instances c (xs.flatMap f) = xs.flatMap fun x => instances c (f x) := by
  induction xs with
  | nil => rfl
  | cons x xs ih => rw [List.flatMap_cons, List.flatMap_cons, instances_append, ih]

theorem instances_method (e : Expr) (name : String) (args : List Expr) :
    instances c [e.method name args] = instances c (e :: args) := by
  simp [Expr.method, instances_cons, Expr.instance?, Expr.parts]

theorem instances_eq_nil {es : List Expr} (h : ¬Constructs c es) : instances c es = [] := by
  refine List.filterMap_eq_nil_iff.2 fun e he => ?_
  cases e with
  | new d args =>
    refine if_neg fun hd => h ⟨args, ?_⟩
    rwa [← hd]
  | _ => rfl

/-- The expressions of a statement, without the value of a constant as a whole. -/
def Stmt.inner : Stmt → List Expr
  | .const _ value => value.parts
  | s => s.exprs

theorem Stmt.instances_inner_sublist (s : Stmt) : (instances c s.inner).Sublist (instances c s.exprs) := by
  cases s with
  | const name value =>
    rw [inner, exprs, instances_cons, instances_nil, List.append_nil]
    exact List.sublist_append_right _ _
  | _ => exact .refl _

/-- The expressions of the statements, without the values of constants as a whole. -/
def innerOf (ss : List Stmt) : List Expr := ss.flatMap Stmt.inner

@[simp] theorem innerOf_append (ss us : List Stmt) : innerOf (ss ++ us) = innerOf ss ++ innerOf us :=
  List.flatMap_append

theorem instances_innerOf_sublist (ss : List Stmt) :
    (instances c (innerOf ss)).Sublist (instances c (exprsOf ss)) := by
  induction ss with
  | nil => exact .refl _
  | cons s ss ih =>
    rw [innerOf, List.flatMap_cons, exprsOf, instances_append, instances_append]
    exact s.instances_inner_sublist.append ih

end ChainCompiler.Script
