import ChainCompiler.Proofs.Lowering.Run
import ChainCompiler.Proofs.Syntax

/-! Expressions with modifiers are lowered by two loops. A definition makes the innermost target a constant and has the
method calls of the modifiers as statements after it; a value has them chained onto the target. Either loop, by induction
on the modifiers, puts together one and the same base and list of calls, and it is of these that more is proved. -/

namespace ChainCompiler

open Component (Attachment chaining)

/-- A lowered expression before its attachments are chained onto its base. -/
structure Bound where
  base : Script.Expr
  attachments : List Attachment

namespace Bound

def plain (e : Script.Expr) : Bound := ⟨e, []⟩

def attach (b : Bound) (more : List Attachment) : Bound := ⟨b.base, b.attachments ++ more⟩

def value (b : Bound) : Script.Expr := b.attachments.foldl (fun e a => e.method a.1 [a.2]) b.base

@[simp] theorem value_plain (e : Script.Expr) : (plain e).value = e := rfl

end Bound

def asTarget (e : Expr) (lowered : Lower Bound) : Lower Bound :=
  match e with
  | .identifier name => Bound.plain <$> Lower.reference name true
  | .call _ => lowered
  | .bind .. => lowered
  | e => Lower.fail (.notATarget e.describe)

/-- An expression lowered to its base and the attachments of its modifiers. -/
def Expr.bound : Expr → Lower Bound
  | .bind target m => do
    let b ← asTarget target target.bound
    return b.attach (← m.attachments)
  | e => Bound.plain <$> e.lowerValue

def attachAll : List Call → Lower (List Attachment)
  | [] => return []
  | m :: ms => do
    let as ← m.attachments
    return as ++ (← attachAll ms)

theorem attachAll_concat (ms : List Call) (m : Call) :
    attachAll (ms ++ [m]) = do
      let as ← attachAll ms
      return as ++ (← m.attachments) := by
  induction ms with
  | nil => simp [attachAll]
  | cons m' ms ih => simp only [List.cons_append, attachAll, ih, bind_assoc, pure_bind, List.append_assoc]

/-- The loop of a value: each modifier is chained onto what the ones before it made. -/
theorem chaining_eq (base : Script.Expr) (ms : List Call) :
    chaining base (ms.map Call.attachments) = (fun as => Bound.value ⟨base, as⟩) <$> attachAll ms := by
  induction ms generalizing base with
  | nil => simp [chaining, attachAll, Bound.value]
  | cons m ms ih => simp [chaining, attachAll, ih, Bound.value]

/-- The loop of a definition: each modifier adds its statements to those of the ones before it. -/
theorem attaching_eq (name : String) (ms : List Call) :
    Lower.attaching name ms =
      List.map (fun a => .expr ((Script.Expr.ident name).method a.1 [a.2])) <$> attachAll ms := by
  induction ms with
  | nil => simp [Lower.attaching, attachAll]
  | cons m ms ih => simp [Lower.attaching, attachAll, ih]

namespace Expr

theorem flatten_bind (target : Expr) (m : Call) :
    (bind target m).flatten = (target.flatten.1, target.flatten.2 ++ [m]) := rfl

theorem lowerBase_flatten (e : Expr) : e.flatten.1.lowerBase = e.lowerBase := by
  fun_induction flatten e with
  | case1 target m base modifiers hflatten ih =>
    rw [hflatten] at ih
    rw [ih, lowerBase]
  | case2 => rfl

theorem modifierSteps_eq (e : Expr) : e.modifierSteps = e.flatten.2.map Call.attachments := by
  fun_induction flatten e with
  | case1 target m base modifiers hflatten ih =>
    rw [hflatten] at ih
    rw [modifierSteps, ih, List.map_append]
    rfl
  | case2 e hbind =>
    cases e with
    | bind target m => exact absurd rfl (hbind target m)
    | _ => rfl

/-- As a value, an expression with modifiers is lowered by the loop over them. -/
theorem lowerValue_of_isBind {e : Expr} (h : e.isBind = true) :
    e.lowerValue = e.flatten.1.lowerBase >>= fun base => chaining base (e.flatten.2.map Call.attachments) := by
  cases e with
  | bind target m =>
    rw [lowerValue, flatten_bind, lowerBase_flatten, modifierSteps_eq, List.map_append]
    rfl
  | _ => cases h

end Expr

/-- A target is lowered by lowering the innermost one and then its modifiers. -/
theorem asTarget_eq (e : Expr) :
    asTarget e e.bound = do return ⟨← e.flatten.1.lowerBase, ← attachAll e.flatten.2⟩ := by
  fun_induction Expr.flatten e with
  | case1 target m base modifiers hflatten ih =>
    rw [hflatten] at ih
    change (Expr.bind target m).bound = _
    rw [Expr.bound, ih, attachAll_concat]
    simp [Bound.attach]
  | case2 e hbind =>
    cases e with
    | bind target m => exact absurd rfl (hbind target m)
    | identifier name =>
      simp only [asTarget, Expr.lowerBase, attachAll, pure_bind, map_eq_pure_bind]
      rfl
    | call c =>
      simp only [asTarget, Expr.bound, Expr.lowerBase, Expr.lowerValue, attachAll, pure_bind, map_eq_pure_bind]
      rfl
    | _ => rfl

/-- As a value, an expression has its attachments chained onto its base. -/
theorem lowerValue_eq (e : Expr) : e.lowerValue = Bound.value <$> e.bound := by
  cases e with
  | bind target m =>
    change _ = Bound.value <$> asTarget (.bind target m) (Expr.bind target m).bound
    rw [asTarget_eq, Expr.lowerValue_of_isBind rfl]
    simp [chaining_eq]
  | _ => simp [Expr.bound]

namespace Lower

/-- The definition of a name: the base, then each attachment as a statement. -/
def defining (name : String) (b : Bound) : List Script.Stmt :=
  .const name b.base :: b.attachments.map fun a => .expr ((Script.Expr.ident name).method a.1 [a.2])

def definitionValue (e : Expr) : Lower Bound :=
  match e with
  | .identifier name => Bound.plain <$> reference name true
  | e => e.bound

/-- As a definition, an expression has its attachments as statements after its base. -/
theorem definition_eq (name : String) (e : Expr) : definition name e = defining name <$> definitionValue e := by
  cases e with
  | bind target m =>
    change _ = defining name <$> asTarget (.bind target m) (Expr.bind target m).bound
    rw [asTarget_eq, definition]
    simp [attaching_eq, defining]
  | _ => simp [definition, definitionValue, Expr.bound, defining, Bound.plain]

end Lower

def Argument.operand (a : Argument) : Operand := ⟨a.name, a.value, a.value.lowerValue⟩

theorem operands_eq_map (args : List Argument) : operands args = args.map Argument.operand := by
  induction args with
  | nil => rfl
  | cons a args ih =>
    obtain ⟨name, e⟩ := a
    rw [operands, ih]
    rfl

theorem pipelineSteps_eq_map (es : List Expr) : pipelineSteps es = es.map Expr.lowerStep := by
  induction es with
  | nil => rfl
  | cons e es ih =>
    rw [pipelineSteps, ih]
    rfl

theorem routerCases_eq_map (cases : List (Expr × List Expr)) :
    routerCases cases = cases.map fun x => (x.1.lowerValue, x.2.map Expr.lowerStep) := by
  induction cases with
  | nil => rfl
  | cons x cases ih =>
    obtain ⟨condition, action⟩ := x
    rw [routerCases, ih, pipelineSteps_eq_map]
    rfl

theorem Call.lower_eq (c : Call) :
    c.lower = Component.call c.name (operands c.args) (routerCases c.block.cases)
      (c.block.fallback.map pipelineSteps) := by
  obtain ⟨name, args, _ | ⟨cases, _ | action⟩⟩ := c <;> rfl

theorem Call.attachments_eq (c : Call) : c.attachments = Component.modifier c.name (operands c.args) := by
  obtain ⟨name, args, router⟩ := c
  rfl

end ChainCompiler
