import ChainCompiler.Proofs.Lowering.Bound

/-! What a lowering depends on. Whether it fails, and why, is decided by what is lowered and by no scope. What it gives
depends on the scope only through the name of the statement being lowered and the number of routers met before, from
which the labels of branches are made. Both are said at once of two runs side by side. -/

namespace ChainCompiler

/-- The parts of two scopes that lowered code can depend on are the same. -/
def Scope.Agree (s t : Scope) : Prop := s.owner = t.owner ∧ s.routers = t.routers

theorem Scope.Agree.refl (s : Scope) : s.Agree s := ⟨rfl, rfl⟩

theorem Scope.Agree.symm {s t : Scope} (h : s.Agree t) : t.Agree s := ⟨h.1.symm, h.2.symm⟩

theorem Scope.Agree.trans {s t u : Scope} (h : s.Agree t) (h' : t.Agree u) : s.Agree u :=
  ⟨h.1.trans h'.1, h.2.trans h'.2⟩

/-- Two outcomes are failures for one cause, or successes, which are the same where `same` holds. -/
inductive Alike {α : Type} (same : Prop) : Except Cause α × Scope → Except Cause α × Scope → Prop
  | ok {a b s t} : (same → a = b ∧ s.Agree t) → Alike same (.ok a, s) (.ok b, t)
  | error {cause s t} : Alike same (.error cause, s) (.error cause, t)

/-- The outcomes of `x` and `y` are alike from any two scopes, which agree where `same` holds. -/
def Parallel {α : Type} (same : Prop) (x y : Lower α) : Prop :=
  ∀ s t, (same → s.Agree t) → Alike same (x s) (y t)

namespace Parallel

variable {α β : Type} {same : Prop} {x y : Lower α}

theorem pure {a b : α} (h : same → a = b) : Parallel same (pure a : Lower α) (pure b) :=
  fun _ _ hst => .ok fun hs => ⟨h hs, hst hs⟩

theorem fail (cause : Cause) : Parallel same (Lower.fail cause : Lower α) (Lower.fail cause) :=
  fun _ _ _ => .error

theorem bind {f g : α → Lower β} (hx : Parallel same x y)
    (hf : ∀ a b, (same → a = b) → Parallel same (f a) (g b)) : Parallel same (x >>= f) (y >>= g) := by
  intro s t hst
  have h := hx s t hst
  rw [Lower.bind_apply, Lower.bind_apply]
  generalize x s = o at h ⊢
  generalize y t = o' at h ⊢
  rcases h with ⟨hab⟩ | _
  · exact hf _ _ (fun hs => (hab hs).1) _ _ fun hs => (hab hs).2
  · exact .error

theorem map (f : α → β) (hx : Parallel same x y) : Parallel same (f <$> x) (f <$> y) := by
  rw [map_eq_pure_bind, map_eq_pure_bind]
  exact hx.bind fun a b hab => Parallel.pure fun hs => by rw [hab hs]

/-- A step that always succeeds with one value and keeps owner and routers. -/
theorem of_steady {a : α} (h : ∀ s, ∃ t, x s = (.ok a, t) ∧ s.Agree t) : Parallel same x x := by
  intro s t hst
  obtain ⟨s', hs', hagree⟩ := h s
  obtain ⟨t', ht', hagree'⟩ := h t
  rw [hs', ht']
  exact .ok fun hs => ⟨rfl, hagree.symm.trans ((hst hs).trans hagree')⟩

theorem need (className : String) : Parallel same (Lower.need className) (Lower.need className) :=
  of_steady fun _ => ⟨_, rfl, rfl, rfl⟩

theorem reference (name : String) (checked : Bool) :
    Parallel same (Lower.reference name checked) (Lower.reference name checked) := by
  cases h : Lower.isEndpoint name with
  | true => exact of_steady fun s => ⟨_, Lower.reference_endpoint h checked s, rfl, rfl⟩
  | false =>
    refine of_steady fun s => ⟨_, Lower.reference_name h checked s, ?_⟩
    split
    · exact ⟨rfl, rfl⟩
    · exact .refl s

theorem registerTool (name : String) : Parallel same (Lower.registerTool name) (Lower.registerTool name) := by
  refine of_steady fun s => ⟨_, Lower.registerTool_apply name s, ?_⟩
  unfold Scope.register
  dsimp only
  split <;> split <;> exact ⟨rfl, rfl⟩

theorem routerLabel : Parallel same Lower.routerLabel Lower.routerLabel := by
  intro s t hst
  rw [Lower.routerLabel_apply, Lower.routerLabel_apply]
  refine .ok fun hs => ?_
  obtain ⟨howner, hrouters⟩ := hst hs
  simp [Scope.label, Scope.count, Scope.Agree, howner, hrouters]

end Parallel

def Operand.Steady (same : Prop) (o : Operand) : Prop := Parallel same o.value o.value

namespace Operand

variable {same : Prop} {ops : List Operand}

theorem rejectUnknown_parallel (call : String) (ops : List Operand) (allowed : List String) :
    Parallel same (rejectUnknown call ops allowed) (rejectUnknown call ops allowed) := by
  unfold rejectUnknown
  split
  · exact .fail _
  · exact .pure fun _ => rfl

theorem fields_parallel (skip : List String) (h : ∀ o ∈ ops, o.Steady same) :
    Parallel same (fields skip ops) (fields skip ops) := by
  induction ops with
  | nil => exact .pure fun _ => rfl
  | cons o ops ih =>
    have hops := ih fun p hp => h p (by simp [hp])
    rw [fields]
    split
    · exact hops
    · split
      · exact hops
      · refine (h o (by simp)).bind fun a b hab => hops.bind fun as bs habs => .pure fun hs => ?_
        rw [hab hs, habs hs]

theorem config_parallel (h : ∀ o ∈ ops, o.Steady same) : Parallel same (config ops) (config ops) := by
  unfold config
  split
  · next o ho => exact h o (mem_of_sole? ho)
  · exact (fields_parallel [] h).bind fun a b hab => .pure fun hs => by rw [hab hs]

end Operand

namespace Component

variable {same : Prop} {ops : List Operand}

theorem valueOr_parallel {o : Option Operand} (absent : Script.Expr) (h : ∀ p ∈ o, p.Steady same) :
    Parallel same (valueOr o absent) (valueOr o absent) := by
  rcases o with _ | o
  · exact .pure fun _ => rfl
  · exact h o rfl

section Operands

variable (h : ∀ o ∈ ops, o.Steady same)
include h

theorem model_parallel : Parallel same (model ops) (model ops) := by
  unfold model
  simp only [pure_bind]
  refine (Parallel.need _).bind fun _ _ _ => ?_
  split
  · next o ho => exact (h o (Operand.mem_of_sole? ho)).bind fun a b hab => .pure fun hs => by rw [hab hs]
  · split
    · exact .pure fun _ => rfl
    · exact (Operand.fields_parallel [] h).bind fun a b hab => .pure fun hs => by rw [hab hs]

theorem tool_parallel : Parallel same (tool ops) (tool ops) := by
  unfold tool
  refine (Parallel.need _).bind fun _ _ _ => (Operand.rejectUnknown_parallel _ _ _).bind fun _ _ _ => ?_
  cases hname : Operand.find? ops "name" with
  | none => exact .fail _
  | some name =>
  cases hhandler : Operand.findAny? ops ["handler", "func"] with
  | none => exact .fail _
  | some handler =>
  refine (h name (Operand.mem_of_find? hname)).bind fun a₁ b₁ h₁ => ?_
  refine (valueOr_parallel _ fun o ho => h o (Operand.mem_of_findAny? ho)).bind fun a₂ b₂ h₂ => ?_
  refine (h handler (Operand.mem_of_findAny? hhandler)).bind fun a₃ b₃ h₃ => ?_
  refine (valueOr_parallel _ fun o ho => h o (Operand.mem_of_find? ho)).bind fun a₄ b₄ h₄ => .pure fun hs => ?_
  rw [h₁ hs, h₂ hs, h₃ hs, h₄ hs]

theorem prompt_parallel : Parallel same (prompt ops) (prompt ops) := by
  unfold prompt
  simp only [pure_bind]
  refine (Parallel.need _).bind fun _ _ _ => (Operand.rejectUnknown_parallel _ _ _).bind fun _ _ _ => ?_
  cases htemplate : (Operand.find? ops "template" <|> Operand.sole? ops) with
  | none => exact .fail _
  | some template =>
  have hvalue := h template (Operand.mem_of_orElse (fun p hp => Operand.mem_of_find? hp) htemplate)
  dsimp only
  split
  · exact .pure fun _ => rfl
  · exact .pure fun _ => rfl
  · exact hvalue.bind fun a b hab => .pure fun hs => by rw [hab hs]

theorem builtin_parallel : Parallel same (builtin ops) (builtin ops) := by
  unfold builtin
  simp only [pure_bind]
  refine (Parallel.need _).bind fun _ _ _ => ?_
  cases hkind : (Operand.findAny? ops ["kind", "type"] <|> Operand.sole? ops) with
  | none => exact .fail _
  | some kind =>
  dsimp only
  split
  · exact (Operand.fields_parallel _ h).bind fun a b hab => .pure fun hs => by rw [hab hs]
  · exact (Operand.fields_parallel _ h).bind fun a b hab => .pure fun hs => by rw [hab hs]
  · refine (Parallel.fail _).bind fun m n hmn => (Operand.fields_parallel _ h).bind fun a b hab => .pure fun hs => ?_
    rw [hab hs, hmn hs]

end Operands

def SteadySteps (same : Prop) (steps : Steps) : Prop := ∀ x ∈ steps, Parallel same x x

theorem addNodes_parallel {steps : Steps} (h : SteadySteps same steps) {c d : Script.Expr} (hcd : same → c = d) :
    Parallel same (addNodes c steps) (addNodes d steps) := by
  induction steps generalizing c d with
  | nil => exact .pure hcd
  | cons step steps ih =>
    refine (h step (by simp)).bind fun a b hab => ih (fun x hx => h x (by simp [hx])) fun hs => ?_
    rw [hcd hs, hab hs]

theorem branch_parallel {steps : Steps} (h : SteadySteps same steps) {l m : String} (hlm : same → l = m) :
    Parallel same (branch l steps) (branch m steps) := by
  unfold branch
  exact (Parallel.need _).bind fun _ _ _ => addNodes_parallel h fun hs => by rw [hlm hs]

theorem routes_parallel {cases : List (Lower Script.Expr × Steps)}
    (h : ∀ x ∈ cases, Parallel same x.1 x.1 ∧ SteadySteps same x.2) {l m : String} (hlm : same → l = m) (index : Nat) :
    Parallel same (routes l index cases) (routes m index cases) := by
  induction cases generalizing index with
  | nil => exact .pure fun _ => rfl
  | cons x cases ih =>
    obtain ⟨hcondition, hsteps⟩ := h x (by simp)
    have hmore := ih (fun y hy => h y (by simp [hy])) (index + 1)
    refine hcondition.bind fun a b hab => ?_
    refine (branch_parallel hsteps fun hs => by rw [hlm hs]).bind fun a' b' hab' => ?_
    refine hmore.bind fun as bs habs => .pure fun hs => ?_
    rw [hab hs, hab' hs, habs hs]

theorem router_parallel (h : ∀ o ∈ ops, o.Steady same) {cases : List (Lower Script.Expr × Steps)}
    (hcases : ∀ x ∈ cases, Parallel same x.1 x.1 ∧ SteadySteps same x.2) {fallback : Option Steps}
    (hfallback : ∀ steps ∈ fallback, SteadySteps same steps) :
    Parallel same (router ops cases fallback) (router ops cases fallback) := by
  unfold router
  simp only [pure_bind]
  refine (Parallel.need _).bind fun _ _ _ => (Operand.config_parallel h).bind fun a₁ b₁ h₁ => ?_
  refine Parallel.routerLabel.bind fun l m hlm => ?_
  refine (routes_parallel hcases hlm 0).bind fun a₂ b₂ h₂ => ?_
  rcases fallback with _ | steps
  · exact .pure fun hs => by rw [h₁ hs, h₂ hs]
  · refine (branch_parallel (hfallback steps rfl) fun hs => by rw [hlm hs]).bind fun a₃ b₃ h₃ => .pure fun hs => ?_
    rw [h₁ hs, h₂ hs, h₃ hs]

theorem call_parallel (name : String) (h : ∀ o ∈ ops, o.Steady same) {cases : List (Lower Script.Expr × Steps)}
    (hcases : ∀ x ∈ cases, Parallel same x.1 x.1 ∧ SteadySteps same x.2) {fallback : Option Steps}
    (hfallback : ∀ steps ∈ fallback, SteadySteps same steps) :
    Parallel same (call name ops cases fallback) (call name ops cases fallback) := by
  unfold call
  split
  · exact model_parallel h
  split
  · exact tool_parallel h
  split
  · exact prompt_parallel h
  split
  · exact builtin_parallel h
  split
  · exact router_parallel h hcases hfallback
  split
  · exact .reference _ _
  · exact .fail _

theorem bindTools_parallel (items : List Expr) : Parallel same (bindTools items) (bindTools items) := by
  induction items with
  | nil => exact .pure fun _ => rfl
  | cons e items ih =>
    cases e with
    | identifier name =>
      refine (Parallel.registerTool name).bind fun _ _ _ => ih.bind fun as bs habs => .pure fun hs => ?_
      rw [habs hs]
    | _ => exact .fail _

theorem bindModifier_parallel (ops : List Operand) : Parallel same (bindModifier ops) (bindModifier ops) := by
  unfold bindModifier
  refine (Operand.rejectUnknown_parallel _ _ _).bind fun _ _ _ => ?_
  split
  · split
    · exact bindTools_parallel _
    · exact .fail _
  · exact .fail _

theorem outputModifier_parallel (h : ∀ o ∈ ops, o.Steady same) :
    Parallel same (outputModifier ops) (outputModifier ops) := by
  unfold outputModifier
  refine (Operand.rejectUnknown_parallel _ _ _).bind fun _ _ _ => ?_
  cases hschema : (Operand.find? ops "schema" <|> Operand.sole? ops) with
  | none => exact .fail _
  | some schema =>
  have hvalue := h schema (Operand.mem_of_orElse (fun p hp => Operand.mem_of_find? hp) hschema)
  dsimp only
  split
  · exact (Parallel.reference _ _).bind fun a b hab => .pure fun hs => by rw [hab hs]
  · exact hvalue.bind fun a b hab => .pure fun hs => by rw [hab hs]
  · exact (Parallel.fail _).bind fun a b hab => .pure fun hs => by rw [hab hs]

theorem modifier_parallel (name : String) (h : ∀ o ∈ ops, o.Steady same) :
    Parallel same (modifier name ops) (modifier name ops) := by
  unfold modifier
  split
  · exact bindModifier_parallel ops
  split
  · exact outputModifier_parallel h
  · exact .fail _

end Component

theorem asTarget_parallel {same : Prop} (e : Expr) {x : Lower Bound} (h : Parallel same x x) :
    Parallel same (asTarget e x) (asTarget e x) := by
  unfold asTarget
  split
  · exact (Parallel.reference _ _).map _
  · exact h
  · exact h
  · exact .fail _

theorem asStep_parallel {same : Prop} (e : Expr) {x : Lower Script.Expr} (h : Parallel same x x) :
    Parallel same (asStep e x) (asStep e x) := by
  unfold asStep
  split
  · exact .reference _ _
  · exact h
  · exact h
  · exact .fail _

section Expressions

variable {same : Prop}

/-- What is lowered to a base and attachments runs in parallel with itself, and so do its value and its step. -/
def Expr.Steady (same : Prop) (e : Expr) : Prop := Parallel same e.bound e.bound

theorem Expr.Steady.lowerValue {e : Expr} (h : e.Steady same) : Parallel same e.lowerValue e.lowerValue := by
  rw [lowerValue_eq]
  exact h.map _

theorem Expr.Steady.lowerStep {e : Expr} (h : e.Steady same) : Parallel same e.lowerStep e.lowerStep :=
  asStep_parallel e h.lowerValue

theorem operands_steady {args : List Argument} (h : ∀ a ∈ args, a.value.Steady same) :
    ∀ o ∈ operands args, o.Steady same := by
  rw [operands_eq_map]
  exact List.forall_mem_map.2 fun a ha => (h a ha).lowerValue

theorem pipelineSteps_steady {es : List Expr} (h : ∀ e ∈ es, e.Steady same) :
    Component.SteadySteps same (pipelineSteps es) := by
  rw [Component.SteadySteps, pipelineSteps_eq_map]
  exact List.forall_mem_map.2 fun e he => (h e he).lowerStep

theorem call_lower_parallel {c : Call} (h : c.Holds (Expr.Steady same)) : Parallel same c.lower c.lower := by
  rw [Call.lower_eq]
  refine Component.call_parallel c.name (operands_steady h.args) ?_ ?_
  · rw [routerCases_eq_map]
    refine List.forall_mem_map.2 fun x hx => ⟨(h.cases x hx).1.lowerValue, ?_⟩
    exact List.forall_mem_map.2 fun e he => ((h.cases x hx).2 e he).lowerStep
  · intro steps hsteps
    obtain ⟨action, haction, rfl⟩ := Option.map_eq_some_iff.1 hsteps
    exact pipelineSteps_steady (h.fallback action haction)

theorem attachments_parallel {m : Call} (h : m.Holds (Expr.Steady same)) : Parallel same m.attachments m.attachments := by
  rw [Call.attachments_eq]
  exact Component.modifier_parallel m.name (operands_steady h.args)

theorem lowerItems_parallel {es : List Expr} (h : ∀ e ∈ es, e.Steady same) :
    Parallel same (lowerItems es) (lowerItems es) := by
  induction es with
  | nil => exact .pure fun _ => rfl
  | cons e es ih =>
    obtain ⟨he, hes⟩ := List.forall_mem_cons.1 h
    exact he.lowerValue.bind fun a b hab => (ih hes).bind fun a' b' hab' => .pure fun hs => by rw [hab hs, hab' hs]

theorem lowerEntries_parallel {es : List (String × Expr)} (h : ∀ x ∈ es, x.2.Steady same) :
    Parallel same (lowerEntries es) (lowerEntries es) := by
  induction es with
  | nil => exact .pure fun _ => rfl
  | cons x es ih =>
    obtain ⟨hx, hes⟩ := List.forall_mem_cons.1 h
    exact hx.lowerValue.bind fun a b hab => (ih hes).bind fun a' b' hab' => .pure fun hs => by rw [hab hs, hab' hs]

theorem Expr.steady (same : Prop) : ∀ e : Expr, e.Steady same := by
  refine Expr.of_parts fun e h => ?_
  cases e with
  | bind target m =>
    refine (asTarget_parallel target h.1).bind fun a b hab => ?_
    exact (attachments_parallel h.2).bind fun a' b' hab' => .pure fun hs => by rw [hab hs, hab' hs]
  | call c => exact (call_lower_parallel h).map _
  | identifier name => exact (Parallel.reference name false).map _
  | list items => exact ((lowerItems_parallel h).bind fun a b hab => .pure fun hs => by rw [hab hs]).map _
  | object entries => exact ((lowerEntries_parallel h).bind fun a b hab => .pure fun hs => by rw [hab hs]).map _
  | _ => exact (Parallel.pure fun _ => rfl).map _

end Expressions

end ChainCompiler
