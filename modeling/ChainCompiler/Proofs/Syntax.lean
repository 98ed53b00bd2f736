import ChainCompiler.Program.Basic

/-! Expressions as trees. An induction over them reaches through calls into their arguments and routers, and an
expression with modifiers is taken apart into its innermost target and the modifiers from left to right. -/

namespace ChainCompiler

/-- The arms of the router of a call. A call without a block has none. -/
def Call.block (c : Call) : RouterBlock := c.router.getD ⟨[], none⟩

/-- What a call is made of satisfies `Q`: the values of its arguments, and the conditions and steps of its router. -/
structure Call.Holds (Q : Expr → Prop) (c : Call) : Prop where
  args : ∀ a ∈ c.args, Q a.value
  cases : ∀ x ∈ c.block.cases, Q x.1 ∧ ∀ e ∈ x.2, Q e
  fallback : ∀ action ∈ c.block.fallback, ∀ e ∈ action, Q e

def Expr.Parts (Q : Expr → Prop) : Expr → Prop
  | .bind target m => Q target ∧ m.Holds Q
  | .call c => c.Holds Q
  | .list items => ∀ e ∈ items, Q e
  | .object entries => ∀ x ∈ entries, Q x.2
  | _ => True

mutual

/-- What holds of each expression whose parts it holds of, holds of all expressions. -/
theorem Expr.of_parts {Q : Expr → Prop} (h : ∀ e, e.Parts Q → Q e) : ∀ e, Q e
  | .bind target m => h _ ⟨Expr.of_parts h target, holds_of_parts h m⟩
  | .call c => h _ (holds_of_parts h c)
  | .list items => h _ (items_of_parts h items)
  | .object entries => h _ (entries_of_parts h entries)
  | .identifier _ => h _ trivial
  | .string _ => h _ trivial
  | .number _ => h _ trivial
  | .boolean _ => h _ trivial
  | .templateVar _ => h _ trivial

theorem items_of_parts {Q : Expr → Prop} (h : ∀ e, e.Parts Q → Q e) : ∀ es : List Expr, ∀ e ∈ es, Q e
  | [] => by simp
  | e :: es => List.forall_mem_cons.2 ⟨Expr.of_parts h e, items_of_parts h es⟩

theorem entries_of_parts {Q : Expr → Prop} (h : ∀ e, e.Parts Q → Q e) : ∀ es : List (String × Expr), ∀ x ∈ es, Q x.2
  | [] => by simp
  | (_, e) :: es => List.forall_mem_cons.2 ⟨Expr.of_parts h e, entries_of_parts h es⟩

theorem args_of_parts {Q : Expr → Prop} (h : ∀ e, e.Parts Q → Q e) : ∀ args : List Argument, ∀ a ∈ args, Q a.value
  | [] => by simp
  | ⟨_, e⟩ :: args => List.forall_mem_cons.2 ⟨Expr.of_parts h e, args_of_parts h args⟩

theorem cases_of_parts {Q : Expr → Prop} (h : ∀ e, e.Parts Q → Q e) :
    ∀ cases : List (Expr × List Expr), ∀ x ∈ cases, Q x.1 ∧ ∀ e ∈ x.2, Q e
  | [] => by simp
  | (condition, action) :: cases =>
    List.forall_mem_cons.2 ⟨⟨Expr.of_parts h condition, items_of_parts h action⟩, cases_of_parts h cases⟩

theorem holds_of_parts {Q : Expr → Prop} (h : ∀ e, e.Parts Q → Q e) : ∀ c : Call, c.Holds Q
  | ⟨_, args, none⟩ => ⟨args_of_parts h args, by simp [Call.block], by simp [Call.block]⟩
  | ⟨_, args, some ⟨cases, none⟩⟩ => ⟨args_of_parts h args, cases_of_parts h cases, by simp [Call.block]⟩
  | ⟨_, args, some ⟨cases, some action⟩⟩ =>
    ⟨args_of_parts h args, cases_of_parts h cases, by simpa [Call.block] using items_of_parts h action⟩

end

namespace Expr

def isBind : Expr → Bool
  | .bind .. => true
  | _ => false

theorem isBind_flatten (e : Expr) : e.flatten.1.isBind = false := by
  fun_induction flatten e with
  | case1 target m base modifiers hflatten ih =>
    rw [hflatten] at ih
    exact ih
  | case2 e hbind =>
    cases e with
    | bind target m => exact absurd rfl (hbind target m)
    | _ => rfl

/-- The modifiers put back onto the innermost target, from left to right. -/
theorem foldl_flatten (e : Expr) : e.flatten.2.foldl bind e.flatten.1 = e := by
  fun_induction flatten e with
  | case1 target m base modifiers hflatten ih =>
    rw [hflatten] at ih
    rw [List.foldl_append, ih]
    rfl
  | case2 => rfl

end Expr

end ChainCompiler
