import ChainCompiler.Proofs.Lowering.Contribution

/-! A target with modifiers is lowered in two ways: a definition makes the target a constant and attaches the modifiers
by statements, a value has them chained onto the target. Both lower the innermost target and then go through the modifiers
from left to right, so that they attach the same method calls, leave the same scope and fail alike. -/

namespace ChainCompiler

open Lower (Ensures)
open Component (Attachment chaining)

/-- The argument of a modifier: the first with the name, or the only one if it has none. -/
def Call.argument? (c : Call) (name : String) : Option Expr :=
  match c.args.find? (·.isNamed name), c.args with
  | some a, _ => some a.value
  | none, [⟨none, e⟩] => some e
  | none, _ => none

/-- What a modifier finds among its operands is its argument. -/
theorem argument?_of_operands {c : Call} {name : String} {o : Operand}
    (h : (Operand.find? (operands c.args) name <|> Operand.sole? (operands c.args)) = some o) :
    c.argument? name = some o.source ∧ o.value = o.source.lowerValue := by
  have hfind : Operand.find? (operands c.args) name = (c.args.find? (·.isNamed name)).map Argument.operand := by
    rw [operands_eq_map]
    exact List.find?_map
  rw [hfind] at h
  unfold Call.argument?
  cases hnamed : c.args.find? (·.isNamed name) with
  | some a =>
    rw [hnamed] at h
    cases h
    exact ⟨rfl, rfl⟩
  | none =>
    rw [hnamed] at h
    change Operand.sole? (operands c.args) = some o at h
    rw [operands_eq_map] at h
    rcases hargs : c.args with _ | ⟨⟨_ | n, e⟩, _ | ⟨a, args⟩⟩ <;> rw [hargs] at h <;> cases h
    exact ⟨rfl, rfl⟩

/-- What a modifier attaches, and what that does to the scope. A `bind` attaches its tools one by one, in the order in
which they are listed; an `output` attaches one structure, which is named or given. -/
inductive Attaches (m : Call) (s : Scope) : List Attachment → Scope → Prop
  | tools {names : List String} : m.name = "bind" → m.argument? "tools" = some (.list (names.map .identifier)) →
      Attaches m s (names.map fun n => ("bind_tool", .ident n)) (names.foldl Scope.register s)
  | named {name v t} : m.name = "output" → m.argument? "schema" = some (.identifier name) →
      Lower.reference name true s = (.ok v, t) → Attaches m s [("bind_structure", v)] t
  | given {entries v t} : m.name = "output" → m.argument? "schema" = some (.object entries) →
      (Expr.object entries).lowerValue s = (.ok v, t) → Attaches m s [("bind_structure", v)] t

/-- What modifiers attach, each in the scope that the one before it leaves. -/
inductive AttachInOrder : List Call → Scope → List Attachment → Scope → Prop
  | nil {s} : AttachInOrder [] s [] s
  | cons {m ms s t u as as'} : Attaches m s as t → AttachInOrder ms t as' u → AttachInOrder (m :: ms) s (as ++ as') u

theorem bindTools_attaches (items : List Expr) (s : Scope) :
    Ensures (Component.bindTools items) s fun as t => ∃ names : List String, items = names.map .identifier ∧
      as = names.map (fun n => ("bind_tool", .ident n)) ∧ t = names.foldl Scope.register s := by
  induction items generalizing s with
  | nil => exact .pure ⟨[], rfl, rfl, rfl⟩
  | cons e items ih =>
    cases e with
    | identifier name =>
      refine .bind_of_ok (Lower.registerTool_apply name s) (.bind (ih _) fun as t has => .pure ?_)
      obtain ⟨names, rfl, rfl, rfl⟩ := has
      exact ⟨name :: names, rfl, rfl, rfl⟩
    | _ => exact .fail

theorem bindModifier_attaches {m : Call} (hm : m.name = "bind") (s : Scope) :
    Ensures (Component.bindModifier (operands m.args)) s (Attaches m s) := by
  refine .rejectUnknown ?_
  cases htools : (Operand.find? (operands m.args) "tools" <|> Operand.sole? (operands m.args)) with
  | none => exact .fail
  | some o =>
  obtain ⟨hargument, -⟩ := argument?_of_operands htools
  dsimp only
  split
  · next items hitems =>
    intro as t hrun
    obtain ⟨names, rfl, rfl, rfl⟩ := bindTools_attaches items s as t hrun
    exact .tools hm (hargument.trans (congrArg some hitems))
  · exact .fail

theorem outputModifier_attaches {m : Call} (hm : m.name = "output") (s : Scope) :
    Ensures (Component.outputModifier (operands m.args)) s (Attaches m s) := by
  refine .rejectUnknown ?_
  cases hschema : (Operand.find? (operands m.args) "schema" <|> Operand.sole? (operands m.args)) with
  | none => exact .fail
  | some o =>
  obtain ⟨hargument, hvalue⟩ := argument?_of_operands hschema
  dsimp only
  split
  · next name hsource =>
    refine .bind (R := fun v t => Lower.reference name true s = (.ok v, t)) (fun _ _ hrun => hrun) ?_
    intro v t hrun
    exact .pure (.named hm (hargument.trans (congrArg some hsource)) hrun)
  · next entries hsource =>
    rw [hvalue, hsource]
    refine .bind (R := fun v t => (Expr.object entries).lowerValue s = (.ok v, t)) (fun _ _ hrun => hrun) ?_
    intro v t hrun
    exact .pure (.given hm (hargument.trans (congrArg some hsource)) hrun)
  · exact .fail_bind

theorem attachments_attaches (m : Call) (s : Scope) : Ensures m.attachments s (Attaches m s) := by
  obtain ⟨name, args, router⟩ := m
  rw [Call.attachments]
  unfold Component.modifier
  split
  · next hm => exact bindModifier_attaches (m := ⟨name, args, router⟩) hm s
  split
  · next hm => exact outputModifier_attaches (m := ⟨name, args, router⟩) hm s
  · exact .fail

/-- The first modifier that cannot be attached, behind those that are. -/
def AttachFails (ms : List Call) (s : Scope) (cause : Cause) (u : Scope) : Prop :=
  ∃ front m back as t, ms = front ++ m :: back ∧ AttachInOrder front s as t ∧ m.attachments t = (.error cause, u)

theorem AttachFails.cons {m : Call} {ms : List Call} {s t u : Scope} {as : List Attachment} {cause : Cause}
    (h : Attaches m s as t) (hms : AttachFails ms t cause u) : AttachFails (m :: ms) s cause u := by
  obtain ⟨front, m', back, as', v, rfl, hfront, hfails⟩ := hms
  exact ⟨m :: front, m', back, as ++ as', v, rfl, .cons h hfront, hfails⟩

/-- The two loops over modifiers, side by side from one scope. The one adds statements about a name, the other calls to an
expression, and after each modifier they are in the same scope. -/
theorem attaching_and_chaining (name : String) (base : Script.Expr) (ms : List Call) (s : Scope) :
    (∃ cause u, AttachFails ms s cause u ∧ Lower.attaching name ms s = (.error cause, u) ∧
        chaining base (ms.map Call.attachments) s = (.error cause, u)) ∨
      ∃ as u, AttachInOrder ms s as u ∧
        Lower.attaching name ms s = (.ok (as.map fun a => .expr ((Script.Expr.ident name).method a.1 [a.2])), u) ∧
        chaining base (ms.map Call.attachments) s = (.ok (as.foldl (fun e a => e.method a.1 [a.2]) base), u) := by
  induction ms generalizing base s with
  | nil => exact .inr ⟨[], s, .nil, rfl, rfl⟩
  | cons m ms ih =>
    rw [Lower.attaching, List.map_cons, chaining]
    rcases hm : m.attachments s with ⟨cause | as, t⟩
    · rw [Lower.bind_of_error _ hm, Lower.bind_of_error _ hm]
      exact .inl ⟨cause, t, ⟨[], m, ms, [], s, rfl, .nil, hm⟩, rfl, rfl⟩
    · have hattaches := attachments_attaches m s as t hm
      rw [Lower.bind_of_ok _ hm, Lower.bind_of_ok _ hm]
      rcases ih (as.foldl (fun e a => e.method a.1 [a.2]) base) t with
        ⟨cause, u, hfails, hstatements, hchained⟩ | ⟨as', u, hattach, hstatements, hchained⟩
      · exact .inl ⟨cause, u, hfails.cons hattaches, Lower.bind_of_error _ hstatements, hchained⟩
      · refine .inr ⟨as ++ as', u, .cons hattaches hattach, ?_, ?_⟩
        · rw [Lower.bind_of_ok _ hstatements, List.map_append]
          rfl
        · rw [hchained, List.foldl_append]

theorem lowerStep_bind {b : Expr} (hb : b.isBind = true) : b.lowerStep = b.lowerValue := by
  cases b with
  | bind target m => rfl
  | _ => cases hb

theorem statement_bind {b : Expr} (hb : b.isBind = true) {st : Statement} (hst : st.declaration = .definition b)
    (s : Scope) :
    Lower.statement st s = (do
      let base ← b.flatten.1.lowerBase
      return ⟨.const st.name base :: (← Lower.attaching st.name b.flatten.2), none⟩ : Lower Lowered) (s.entered st) := by
  rw [Lower.statement, Lower.bind_of_ok _ (show Lower.enter st s = (.ok (), s.entered st) from rfl), hst]
  cases b with
  | bind target m => simp [Lower.definition]
  | _ => cases hb

/-- The two lowerings of a target with modifiers agree. Its innermost target has no modifiers, and with the modifiers
put back onto it from left to right it is what it was. As a definition, as a value and as a step it fails alike, because
of the innermost target or of the first modifier that cannot be attached. Else the innermost target is lowered to one
expression and the modifiers, in order, to method calls: the definition makes the expression a constant and calls the
methods on that by statements, the value and the step have the calls chained onto the expression, and all three leave
the same scope. -/
theorem lowerings_agree {b base : Expr} {ms : List Call} (hb : b.isBind = true) (hflatten : b.flatten = (base, ms))
    {st : Statement} (hst : st.declaration = .definition b) (s : Scope) :
    base.isBind = false ∧ ms.foldl .bind base = b ∧
    ((∃ cause u, Lower.statement st s = (.error cause, u) ∧ b.lowerValue (s.entered st) = (.error cause, u) ∧
        b.lowerStep (s.entered st) = (.error cause, u) ∧
        (base.lowerBase (s.entered st) = (.error cause, u) ∨
          ∃ e t, base.lowerBase (s.entered st) = (.ok e, t) ∧ AttachFails ms t cause u)) ∨
      ∃ e as t u, base.lowerBase (s.entered st) = (.ok e, t) ∧ AttachInOrder ms t as u ∧
        Lower.statement st s =
          (.ok ⟨.const st.name e :: as.map fun a => .expr ((Script.Expr.ident st.name).method a.1 [a.2]), none⟩, u) ∧
        b.lowerValue (s.entered st) = (.ok (as.foldl (fun e a => e.method a.1 [a.2]) e), u) ∧
        b.lowerStep (s.entered st) = (.ok (as.foldl (fun e a => e.method a.1 [a.2]) e), u)) := by
  have hbase : b.flatten.1 = base := congrArg Prod.fst hflatten
  have hms : b.flatten.2 = ms := congrArg Prod.snd hflatten
  subst hbase hms
  refine ⟨b.isBind_flatten, b.foldl_flatten, ?_⟩
  rw [lowerStep_bind hb, statement_bind hb hst, Expr.lowerValue_of_isBind hb]
  rcases hrun : b.flatten.1.lowerBase (s.entered st) with ⟨cause | e, t⟩
  · rw [Lower.bind_of_error _ hrun, Lower.bind_of_error _ hrun]
    exact .inl ⟨cause, t, rfl, rfl, rfl, .inl rfl⟩
  · rw [Lower.bind_of_ok _ hrun, Lower.bind_of_ok _ hrun]
    rcases attaching_and_chaining st.name e b.flatten.2 t with
      ⟨cause, u, hfails, hstatements, hchained⟩ | ⟨as, u, hattach, hstatements, hchained⟩
    · exact .inl ⟨cause, u, Lower.bind_of_error _ hstatements, hchained, hchained, .inr ⟨e, t, rfl, hfails⟩⟩
    · exact .inr ⟨e, as, t, u, rfl, hattach, Lower.bind_of_ok _ hstatements, hchained, hchained⟩

def boundModel : Expr :=
  .bind (.bind (.call ⟨"Model", [], none⟩) ⟨"bind", [⟨some "tools", .list [.identifier "t", .identifier "u"]⟩], none⟩)
    ⟨"output", [⟨none, .identifier "S"⟩], none⟩

theorem lowerings_agree_boundModel :
    ∃ e as u, boundModel.isBind = true ∧
      Lower.statement ⟨"x", 1, .definition boundModel⟩ (Scope.initial []) =
        (.ok ⟨.const "x" e :: as.map fun a => .expr ((Script.Expr.ident "x").method a.1 [a.2]), none⟩, u) ∧
      boundModel.lowerStep ((Scope.initial []).entered ⟨"x", 1, .definition boundModel⟩) =
        (.ok (as.foldl (fun e a => e.method a.1 [a.2]) e), u) ∧
      as = [("bind_tool", .ident "t"), ("bind_tool", .ident "u"), ("bind_structure", .ident "S")] := by
  have hrun : Lower.statement ⟨"x", 1, .definition boundModel⟩ (Scope.initial []) = (.ok _, _) := rfl
  have hst : (⟨"x", 1, .definition boundModel⟩ : Statement).declaration = .definition boundModel := rfl
  have hinjective : Function.Injective fun a : Attachment =>
      Script.Stmt.expr ((Script.Expr.ident "x").method a.1 [a.2]) := by
    rintro ⟨m, e⟩ ⟨m', e'⟩ h
    cases h
    rfl
  obtain ⟨-, -, ⟨cause, u, hfails, -⟩ | ⟨e, as, t, u, -, -, hdefinition, -, hstep⟩⟩ :=
    lowerings_agree rfl rfl hst (Scope.initial [])
  · rw [hrun] at hfails
    cases hfails
  · refine ⟨e, as, u, rfl, hdefinition, hstep, ?_⟩
    rw [hrun] at hdefinition
    injection hdefinition with hlowered
    injection hlowered with hlowered
    injection hlowered with hstatements
    injection hstatements with _ hcalls
    exact (List.map_inj_right fun _ _ h => hinjective h).1 hcalls.symm

end ChainCompiler
