import ChainCompiler.Proofs.Script.Nodes

/-! The tools that a script binds, in the order in which its calls are made: a receiver comes before the arguments of
its method, and both come before the call. -/

namespace ChainCompiler.Script

def callTool? (method : String) : List Expr → Option String
  | [.ident tool] => if method = "bind_tool" then some tool else none
  | _ => none

def Expr.boundTool? : Expr → Option String
  | .call (.member _ method) args => callTool? method args
  | _ => none

theorem Expr.boundTool?_eq_some {e : Expr} {tool : String} :
    e.boundTool? = some tool ↔ ∃ target : Expr, e = target.method "bind_tool" [.ident tool] := by
  constructor
  · intro h
    unfold boundTool? at h
    split at h
    · next target name args =>
      unfold callTool? at h
      split at h
      · rw [Option.ite_none_right_eq_some, Option.some.injEq] at h
        obtain ⟨rfl, rfl⟩ := h
        exact ⟨target, rfl⟩
      · cases h
    · cases h
  · rintro ⟨target, rfl⟩
    rfl

mutual

/-- The tools that an expression binds at any depth, each as often as it is bound. -/
def Expr.boundTools : Expr → List String
  | .array items => itemTools items
  | .object fields => fieldTools fields
  | .new _ args => itemTools args
  | .call callee args => callee.boundTools ++ itemTools args ++ (Expr.call callee args).boundTool?.toList
  | .member owner _ => owner.boundTools
  | .await value => value.boundTools
  | _ => []

def itemTools : List Expr → List String
  | [] => []
  | e :: es => e.boundTools ++ itemTools es

def fieldTools : List (String × Expr) → List String
  | [] => []
  | (_, e) :: fields => e.boundTools ++ fieldTools fields

end

theorem itemTools_eq_flatMap (es : List Expr) : itemTools es = es.flatMap Expr.boundTools := by
  induction es with
  | nil => rfl
  | cons e es ih => rw [itemTools, ih, List.flatMap_cons]

@[simp] theorem itemTools_append (es fs : List Expr) : itemTools (es ++ fs) = itemTools es ++ itemTools fs := by
  simp only [itemTools_eq_flatMap, List.flatMap_append]

theorem fieldTools_eq (fields : List (String × Expr)) : fieldTools fields = itemTools (fields.map Prod.snd) := by
  induction fields with
  | nil => rfl
  | cons f fields ih => rw [fieldTools, ih, List.map_cons, itemTools]

theorem itemTools_flatMap {α : Type} (xs : List α) (f : α → List Expr) :
    itemTools (xs.flatMap f) = xs.flatMap fun x => itemTools (f x) := by
  simp only [itemTools_eq_flatMap, List.flatMap_assoc]

/-- The tools that a call of a method with one argument binds, those of its receiver apart. -/
def callTools (method : String) (arg : Expr) : List String := arg.boundTools ++ (callTool? method [arg]).toList

theorem callTools_of_ne {method : String} (h : method ≠ "bind_tool") (arg : Expr) :
    callTools method arg = arg.boundTools := by
  have hnone : callTool? method [arg] = none := by
    unfold callTool?
    split
    · exact if_neg h
    · rfl
  rw [callTools, hnone, Option.toList_none, List.append_nil]

theorem Expr.boundTools_method (target : Expr) (name : String) (arg : Expr) :
    (target.method name [arg]).boundTools = target.boundTools ++ callTools name arg := by
  rw [method, boundTools, boundTools, itemTools, itemTools, List.append_nil, boundTool?, callTools, List.append_assoc]

section Nodes

open ChainCompiler.Script.Expr (nodes boundTool? boundTools)

variable {tool : String}

mutual

theorem Expr.mem_boundTools : ∀ e : Expr, tool ∈ e.boundTools ↔ ∃ n ∈ e.nodes, n.boundTool? = some tool
  | .ident _ => by simp [boundTools, nodes, boundTool?]
  | .str _ => by simp [boundTools, nodes, boundTool?]
  | .number _ => by simp [boundTools, nodes, boundTool?]
  | .bool _ => by simp [boundTools, nodes, boundTool?]
  | .null => by simp [boundTools, nodes, boundTool?]
  | .array items => by simp [boundTools, nodes, boundTool?, mem_itemTools items]
  | .object fields => by simp [boundTools, nodes, boundTool?, mem_fieldTools fields]
  | .new _ args => by simp [boundTools, nodes, boundTool?, mem_itemTools args]
  | .call callee args => by
    simp only [boundTools, nodes, List.mem_append, List.mem_cons, callee.mem_boundTools, mem_itemTools args,
      Option.mem_toList, or_and_right, exists_or, exists_eq_left]
    rw [or_comm]
  | .member owner _ => by simp [boundTools, nodes, boundTool?, owner.mem_boundTools]
  | .await value => by simp [boundTools, nodes, boundTool?, value.mem_boundTools]

theorem mem_itemTools : ∀ es : List Expr, tool ∈ itemTools es ↔ ∃ n ∈ itemNodes es, n.boundTool? = some tool
  | [] => by simp [itemTools, itemNodes]
  | e :: es => by
    simp only [itemTools, itemNodes, List.mem_append, e.mem_boundTools, mem_itemTools es, or_and_right, exists_or]

theorem mem_fieldTools : ∀ fs : List (String × Expr),
    tool ∈ fieldTools fs ↔ ∃ n ∈ fieldNodes fs, n.boundTool? = some tool
  | [] => by simp [fieldTools, fieldNodes]
  | (_, e) :: fs => by
    simp only [fieldTools, fieldNodes, List.mem_append, e.mem_boundTools, mem_fieldTools fs, or_and_right, exists_or]

end

/-- The tools bound by expressions are the arguments of the calls of `bind_tool` in them. -/
theorem mem_itemTools_iff (es : List Expr) :
    tool ∈ itemTools es ↔ ∃ target : Expr, target.method "bind_tool" [.ident tool] ∈ itemNodes es := by
  simp only [mem_itemTools, Expr.boundTool?_eq_some]
  constructor
  · rintro ⟨n, hn, target, rfl⟩
    exact ⟨target, hn⟩
  · rintro ⟨target, hn⟩
    exact ⟨_, hn, target, rfl⟩

end Nodes

end ChainCompiler.Script
