import ChainCompiler.Proofs.Lowering.Walk
import ChainCompiler.Proofs.Script.Binding

/-! Lowering registers the tools that the code it emits binds, in the order in which that code binds them. A tool is
noted in one place and bound in another, a definition's modifiers become statements of their own and those of a step are
chained onto it; here both are followed through the same walk. -/

namespace ChainCompiler

open Script (itemTools)

def addTool (tools : List String) (tool : String) : List String :=
  if tools.contains tool then tools else tools ++ [tool]

/-- Tools added one by one to a registry: those it lacks follow it, in the order of their first occurrences. -/
theorem foldl_addTool (tools more : List String) :
    more.foldl addTool tools = tools ++ (more.removeAll tools).eraseDups := by
  induction more generalizing tools with
  | nil => simp [List.removeAll]
  | cons tool more ih =>
    rw [List.foldl_cons, ih, addTool]
    by_cases h : tool ∈ tools
    · simp [List.removeAll, h]
    · have hfilter : more.removeAll (tools ++ [tool]) = (more.removeAll tools).filter fun t => !t == tool := by
        simp only [List.removeAll, List.filter_filter]
        congr 1
        funext t
        by_cases ht : t = tool <;> simp [ht]
      have hcons : (tool :: more).removeAll tools = tool :: more.removeAll tools := by
        simp [List.removeAll, h]
      rw [if_neg (by simpa using h), hfilter, hcons, List.eraseDups_cons, List.append_assoc]
      rfl

/-- Between the two scopes the tools are registered one by one. -/
def Registers (s : Scope) (tools : List String) (t : Scope) : Prop := t.tools = tools.foldl addTool s.tools

namespace Registers

variable {s t u : Scope} {xs ys : List String}

theorem silent (h : t.tools = s.tools) : Registers s [] t := h

theorem nil : Registers s [] s := silent rfl

theorem append (h : Registers s xs t) (h' : Registers t ys u) : Registers s (xs ++ ys) u := by
  unfold Registers at *
  rw [List.foldl_append, ← h, h']

theorem register (s : Scope) (tool : String) : Registers s [tool] (s.register tool) := s.tools_register tool

end Registers

/-- Between the two scopes the tools that the expressions bind are registered. -/
def RegistersTools (s : Scope) (es : List Script.Expr) (t : Scope) : Prop := Registers s (itemTools es) t

namespace RegistersTools

variable {s t : Scope} {e : Script.Expr} {es : List Script.Expr}

theorem of_eq {fs : List Script.Expr} (h : RegistersTools s es t) (hfs : itemTools fs = itemTools es) :
    RegistersTools s fs t := by
  rwa [RegistersTools, hfs]

theorem append {u : Scope} {fs : List Script.Expr} (h : RegistersTools s es t) (h' : RegistersTools t fs u) :
    RegistersTools s (es ++ fs) u := by
  rw [RegistersTools, Script.itemTools_append]
  exact Registers.append h h'

theorem cons {u : Scope} (h : RegistersTools s [e] t) (h' : RegistersTools t es u) : RegistersTools s (e :: es) u :=
  h.append h'

theorem itemTools_chained (label : String) (nodes : List Script.Expr) :
    itemTools [chained label nodes] = itemTools nodes := by
  have hadded : ∀ e : Script.Expr, itemTools [nodes.foldl (fun e n => e.method "addNode" [n]) e] =
      itemTools (e :: nodes) := by
    induction nodes with
    | nil => exact fun _ => rfl
    | cons node nodes ih =>
      intro e
      rw [List.foldl_cons, ih, itemTools, Script.Expr.boundTools_method, Script.callTools_of_ne (by decide)]
      exact List.append_assoc _ _ _
  exact hadded _

theorem routes {label : String} {index : Nat} {rs : List Script.Expr} (h : Routes RegistersTools label index s rs t) :
    RegistersTools s rs t := by
  induction h with
  | nil => exact .nil
  | @cons index s t u w c nodes rs hcondition haction _ ih =>
    let branch := chained (label ++ "_case_" ++ index.repr) nodes
    have hbranch : RegistersTools t [branch] u := of_eq haction (itemTools_chained _ nodes)
    have hroute : RegistersTools s [.object [("when", c), ("then", branch)]] u :=
      of_eq (hcondition.cons hbranch) (by simp [itemTools, Script.Expr.boundTools, Script.fieldTools])
    exact hroute.cons ih

theorem fallback {label : String} (h : Fallback RegistersTools label s e t) : RegistersTools s [e] t := by
  cases h with
  | none => exact .nil
  | some haction => exact of_eq haction (itemTools_chained _ _)

/-- Whatever lowering emits binds the tools that are registered meanwhile. -/
theorem walk : Walk (fun _ => True) RegistersTools where
  silent _ htools _ := .silent htools
  append := append
  name _ := .nil
  str := .nil
  number _ := .nil
  bool := .nil
  null := .nil
  array h := of_eq h (by simp [itemTools, Script.Expr.boundTools])
  object {_ _ fs} h := of_eq h (by simp [itemTools, Script.Expr.boundTools, Script.fieldTools_eq])
  new _ _ h := of_eq h (by simp [itemTools, Script.Expr.boundTools])
  router {_ t _ _ _ rs _} hconfig hroutes hfallback := by
    have hcounted : RegistersTools _ _ t.count := hconfig
    have harray : RegistersTools _ [.array rs] _ := of_eq (routes hroutes) (by simp [itemTools, Script.Expr.boundTools])
    exact of_eq (hcounted.cons (harray.cons (fallback hfallback))) (by simp [itemTools, Script.Expr.boundTools])
  tool {_ t _ n} he _ := by
    have htool : Registers t (Script.callTools "bind_tool" (.ident n)) (t.register n) := .register t n
    rw [RegistersTools, itemTools, Script.Expr.boundTools_method]
    exact (Registers.append (by simpa [RegistersTools, itemTools] using he) htool).append .nil
  method {_ _ _ _ _ _} _ hm he ha := by
    refine of_eq (he.cons ha) ?_
    simp [itemTools, Script.Expr.boundTools_method, Script.callTools_of_ne hm]

end RegistersTools

/-- The tools that a statement's contribution binds: those of its definitions, then those of its memory
configuration. -/
def Lowered.boundTools (l : Lowered) : List String :=
  itemTools (Script.exprsOf l.definitions) ++ itemTools (l.chain.bind ChainEntry.memory).toList

theorem Contributes.registers {name : String} {s t : Scope} {l : Lowered}
    (h : Contributes RegistersTools name s l t) :
    RegistersTools s (Script.exprsOf l.definitions ++ (l.chain.bind ChainEntry.memory).toList) t := by
  cases h with
  | definition hcode =>
    rw [Script.exprsOf, Script.exprsOf_map_expr]
    exact hcode.append .nil
  | chain hcalls hmemory =>
    rw [Script.exprsOf, Script.exprsOf_map_expr]
    refine RegistersTools.append hcalls ?_
    cases hmemory with
    | none => exact .nil
    | some hconfig => exact hconfig
  | @schema fields => exact (RegistersTools.walk.schemaOf s fields).append .nil

namespace Lower

theorem program_registers {p : Program} {s t : Scope} {ls : List Lowered} (hrun : (program p).run s = (.ok ls, t)) :
    Registers s (ls.flatMap Lowered.boundTools) t := by
  have hcode := program_walk RegistersTools.walk (fun hcontributes => hcontributes.registers) (by simp) (by simp) hrun
  simp only [RegistersTools, Script.itemTools_flatMap, Script.itemTools_append] at hcode
  exact hcode

/-- The tools registered for a program are those that its code binds, in the order of their first bindings. -/
theorem tools_of_program {p : Program} {t : Scope} {ls : List Lowered}
    (hrun : (program p).run (Scope.initial p) = (.ok ls, t)) :
    t.tools = (ls.flatMap Lowered.boundTools).eraseDups := by
  have hregisters : t.tools = (ls.flatMap Lowered.boundTools).foldl addTool [] := program_registers hrun
  have hall : ∀ xs : List String, xs.removeAll [] = xs := fun xs => List.filter_eq_self.2 (by simp)
  rw [hregisters, foldl_addTool, List.nil_append, hall]

end Lower

end ChainCompiler
