import ChainCompiler.Proofs.Lowering.Arguments
import ChainCompiler.Proofs.Lowering.Chains

/-! The sites of a program: all that takes arguments, at any depth, which are the components, the modifiers and the
memories of chains. Each of them gets into the module with all its arguments but those that are passed over because
another name for them is given too. -/

namespace ChainCompiler

open Component (isShadowed isKind unshadowed)
open Script (Stmt itemNodes itemNodes_eq_flatMap)

/-- Something that takes arguments. -/
inductive Site where
  | component (c : Call)
  | modifier (m : Call)
  /-- The memory of a chain. -/
  | memory (chain : String) (m : Call)

mutual

/-- The sites of an expression, at any depth. Nothing below an argument that is passed over counts. -/
def Expr.sites : Expr → List Site
  | .bind target m => target.sites ++ .modifier m :: m.inner
  | .call c => .component c :: c.inner
  | .list items => itemSites items
  | .object entries => entrySites entries
  | .identifier _ => []
  | .string _ => []
  | .number _ => []
  | .boolean _ => []
  | .templateVar _ => []

def itemSites : List Expr → List Site
  | [] => []
  | e :: es => e.sites ++ itemSites es

def entrySites : List (String × Expr) → List Site
  | [] => []
  | (_, e) :: entries => e.sites ++ entrySites entries

def argumentSites (skip : Option String → Bool) : List Argument → List Site
  | [] => []
  | ⟨name, e⟩ :: args => (if skip name then [] else e.sites) ++ argumentSites skip args

def caseSites : List (Expr × List Expr) → List Site
  | [] => []
  | (condition, action) :: cases => condition.sites ++ itemSites action ++ caseSites cases

def RouterBlock.sites : RouterBlock → List Site
  | ⟨cases, none⟩ => caseSites cases
  | ⟨cases, some action⟩ => caseSites cases ++ itemSites action

def Call.inner : Call → List Site
  | ⟨name, args, none⟩ => argumentSites (isShadowed name args) args
  | ⟨name, args, some b⟩ => argumentSites (isShadowed name args) args ++ b.sites

end

namespace Statement

def sites (st : Statement) : List Site :=
  match st.declaration with
  | .definition value => value.sites
  | .chain steps _ => itemSites steps
  | .schema _ => []

def memorySites (st : Statement) : List Site :=
  match st.declaration with
  | .chain _ (some m) => .memory st.name m :: m.inner
  | _ => []

end Statement

/-- The site is in the code with its arguments: a component as the instance that it is lowered to, in which they have
their places, a modifier as calls of the methods that it attaches for them, and a memory as the configuration that is
set in the context of its chain. -/
def Site.Contributes (es : List Script.Expr) : Site → Prop
  | component c => ∃ s t out, c.lower s = (.ok (.new c.name out), t) ∧ .new c.name out ∈ itemNodes es ∧
      Filled c.name c.args out
  | modifier m => ∃ s t as, m.attachments s = (.ok as, t) ∧
      (∀ x ∈ as, ∃ target : Script.Expr, target.method x.1 [x.2] ∈ itemNodes es) ∧ ∀ a ∈ m.args, Attached m.name a as
  | memory chain m => ∃ s t config, Lower.memory m s = (.ok config, t) ∧
      (Script.Expr.ident (Module.contextName chain)).method "set" [.str "memory", config] ∈ itemNodes es ∧
      ∀ a ∈ m.args, ∃ v, Lowers a.value v ∧ (Slot.config a.name).Holds [config] v

theorem Site.Contributes.mono {site : Site} {es fs : List Script.Expr} (h : site.Contributes es)
    (hsub : itemNodes es ⊆ itemNodes fs) : site.Contributes fs := by
  cases site with
  | component c =>
    obtain ⟨s, t, out, hrun, hmem, hfilled⟩ := h
    exact ⟨s, t, out, hrun, hsub hmem, hfilled⟩
  | modifier m =>
    obtain ⟨s, t, as, hrun, hcalls, hattached⟩ := h
    refine ⟨s, t, as, hrun, fun x hx => ?_, hattached⟩
    obtain ⟨target, htarget⟩ := hcalls x hx
    exact ⟨target, hsub htarget⟩
  | memory chain m =>
    obtain ⟨s, t, config, hrun, hmem, hargs⟩ := h
    exact ⟨s, t, config, hrun, hsub hmem, hargs⟩

/-- All of the sites are in the code. -/
def Contribute (sites : List Site) (es : List Script.Expr) : Prop := ∀ site ∈ sites, site.Contributes es

namespace Contribute

variable {sites more : List Site} {es fs : List Script.Expr}

theorem nil : Contribute [] es := fun _ hsite => absurd hsite List.not_mem_nil

theorem mono (h : Contribute sites es) (hsub : itemNodes es ⊆ itemNodes fs) : Contribute sites fs :=
  fun site hsite => (h site hsite).mono hsub

theorem cons {site : Site} (h : site.Contributes es) (h' : Contribute sites es) : Contribute (site :: sites) es :=
  List.forall_mem_cons.2 ⟨h, h'⟩

theorem append (h : Contribute sites es) (h' : Contribute more es) : Contribute (sites ++ more) es :=
  List.forall_mem_append.2 ⟨h, h'⟩

end Contribute

theorem itemSites_eq_flatMap (es : List Expr) : itemSites es = es.flatMap Expr.sites := by
  induction es with
  | nil => rfl
  | cons e es ih => rw [itemSites, ih, List.flatMap_cons]

theorem entrySites_eq_flatMap (entries : List (String × Expr)) :
    entrySites entries = entries.flatMap fun x => x.2.sites := by
  induction entries with
  | nil => rfl
  | cons x entries ih => rw [entrySites, ih, List.flatMap_cons]

theorem mem_argumentSites {skip : Option String → Bool} {args : List Argument} {site : Site} :
    site ∈ argumentSites skip args ↔ ∃ a ∈ args, skip a.name = false ∧ site ∈ a.value.sites := by
  induction args with
  | nil => simp [argumentSites]
  | cons a args ih =>
    obtain ⟨name, e⟩ := a
    rw [argumentSites, List.mem_append, ih, List.exists_mem_cons_iff]
    cases skip name <;> simp

theorem Call.inner_eq (name : String) (args : List Argument) (b : RouterBlock) :
    (Call.mk name args (some b)).inner =
      argumentSites (isShadowed name args) args ++ (caseSites b.cases ++ b.fallback.elim [] itemSites) := by
  obtain ⟨cases, _ | action⟩ := b
  · simp [inner, RouterBlock.sites]
  · rfl

/-- What is run in order has a value for each of its members. -/
theorem exists_value_of_mem {α : Type} {f : α → Lower Script.Expr} {xs : List α} {s t : Scope} {vs : List Script.Expr}
    (h : RunInOrder (xs.map f) s vs t) {x : α} (hx : x ∈ xs) : ∃ v ∈ vs, ∃ s t, f x s = (.ok v, t) := by
  induction xs generalizing s vs with
  | nil => cases hx
  | cons y xs ih =>
    cases h with
    | cons hy hxs =>
      rcases List.mem_cons.1 hx with rfl | hx
      · exact ⟨_, List.mem_cons_self, _, _, hy⟩
      · obtain ⟨v, hv, hrun⟩ := ih hxs hx
        exact ⟨v, List.mem_cons_of_mem _ hv, hrun⟩

/-- The sites of what is run in order, each of which is in its value. -/
theorem contribute_of_run {α : Type} {f : α → Lower Script.Expr} {sites : α → List Site} {xs : List α} {s t : Scope}
    {vs : List Script.Expr} (hrun : RunInOrder (xs.map f) s vs t)
    (h : ∀ x ∈ xs, ∀ s v t, f x s = (.ok v, t) → Contribute (sites x) [v]) : Contribute (xs.flatMap sites) vs := by
  intro site hsite
  obtain ⟨x, hx, hsite⟩ := List.mem_flatMap.1 hsite
  obtain ⟨v, hv, s', t', hrun'⟩ := exists_value_of_mem hrun hx
  exact (h x hx s' v t' hrun' site hsite).mono (itemNodes_subset (by simpa using hv))

theorem itemNodes_parts_subset (e : Script.Expr) : itemNodes e.parts ⊆ itemNodes [e] := by
  intro w hw
  rw [itemNodes, e.nodes_eq_cons]
  simp [hw]

section Values

/-- A literal or a name has no sites. -/
theorem sites_of_standsFor {component : String} {a : Argument} {v : Script.Expr} (h : StandsFor component a v)
    (hkind : isKind component a.name = true) : a.value.sites = [] := by
  cases h with
  | kind _ hvalue => rcases hvalue with hvalue | hvalue <;> rw [hvalue] <;> rfl
  | template _ hvalue =>
    rw [hvalue]
    rfl
  | value hnot _ _ =>
    rw [hkind] at hnot
    cases hnot

/-- The sites in the arguments of a component are in its instance. -/
theorem Arranged.contribute {args used : List Argument} {component : String} {vs out : List Script.Expr}
    (hshape : WellFormed.Shape args) (h : Arranged args component used vs out) {s t : Scope}
    (hrun : RunInOrder (used.map Argument.lower) s vs t)
    (hargs : ∀ a ∈ args, ∀ s v t, a.value.lowerValue s = (.ok v, t) → Contribute a.value.sites [v]) :
    Contribute (argumentSites (isShadowed component args) args) out := by
  have hfilled := h.filled hshape (forall₂_of_run hrun)
  intro site hsite
  obtain ⟨a, ha, hshadowed, hsite⟩ := mem_argumentSites.1 hsite
  cases hkind : isKind component a.name with
  | true =>
    obtain ⟨v, hstands, -⟩ := hfilled a ha hshadowed
    rw [sites_of_standsFor hstands hkind] at hsite
    cases hsite
  | false =>
    rcases h.mem_used hshape ha hshadowed hkind with hused | ⟨text, hvalue⟩ | ⟨name, hvalue⟩
    · obtain ⟨v, hv, s', t', hrun'⟩ := exists_value_of_mem hrun hused
      have hsub : itemNodes [v] ⊆ itemNodes vs := itemNodes_subset (by simpa using hv)
      exact (hargs a ha s' v t' hrun' site hsite).mono fun w hw => h.nodes_subset (hsub hw)
    · rw [hvalue] at hsite
      cases hsite
    · rw [hvalue] at hsite
      cases hsite

theorem Configured.contribute {args used : List Argument} {vs : List Script.Expr} {v : Script.Expr}
    (hshape : WellFormed.Shape args) (h : Configured args used vs v) {s t : Scope}
    (hrun : RunInOrder (used.map Argument.lower) s vs t)
    (hargs : ∀ a ∈ args, ∀ s v t, a.value.lowerValue s = (.ok v, t) → Contribute a.value.sites [v])
    (skip : Option String → Bool) : Contribute (argumentSites skip args) [v] := by
  intro site hsite
  obtain ⟨a, ha, -, hsite⟩ := mem_argumentSites.1 hsite
  obtain ⟨w, hw, s', t', hrun'⟩ := exists_value_of_mem hrun (h.mem_used hshape ha)
  have hsub : itemNodes [w] ⊆ itemNodes vs := itemNodes_subset (by simpa using hw)
  exact (hargs a ha s' w t' hrun' site hsite).mono fun x hx => h.nodes_subset (hsub hx)

theorem contribute_of_value {e : Expr} (h : WellFormed.Value e) :
    ∀ s v t, e.lowerValue s = (.ok v, t) → Contribute e.sites [v] := by
  induction h with
  | list _ ih =>
    intro s v t hrun
    obtain ⟨vs, hvs, rfl⟩ := lowerValue_list hrun
    rw [Expr.sites, itemSites_eq_flatMap]
    exact (contribute_of_run hvs ih).mono (itemNodes_parts_subset (.array vs))
  | object _ _ ih =>
    intro s v t hrun
    obtain ⟨fs, hfs, rfl⟩ := lowerValue_object hrun
    rw [Expr.sites, entrySites_eq_flatMap]
    exact (contribute_of_run hfs ih).mono (itemNodes_parts_subset (.object fs))
  | @call name args hshape _ ih =>
    intro s v t hrun
    rw [lowerValue_call] at hrun
    obtain ⟨u, ⟨used, vs, out, harranged, hvs, rfl⟩, -⟩ := makes_of_lower hrun
    rw [Expr.sites, Call.inner]
    refine .cons ?_ ?_
    · exact ⟨s, t, out, hrun, by simp [itemNodes, Script.Expr.nodes],
        harranged.filled hshape (forall₂_of_run hvs)⟩
    · exact (harranged.contribute hshape hvs ih).mono (itemNodes_parts_subset (.new name out))
  | _ => exact fun _ _ _ _ => .nil

end Values

section Steps

/-- The base is in the code, and each attachment is there as a call. -/
structure Placed (b : Bound) (es : List Script.Expr) : Prop where
  base : b.base.nodes ⊆ itemNodes es
  attachments : ∀ x ∈ b.attachments, ∃ target : Script.Expr, (target.method x.1 [x.2]).nodes ⊆ itemNodes es

theorem nodes_method (target : Script.Expr) (name : String) (v : Script.Expr) :
    (target.method name [v]).nodes = target.method name [v] :: .member target name :: (target.nodes ++ v.nodes) := by
  simp [Script.Expr.method, Script.Expr.nodes, itemNodes]

/-- In a value the attachments are chained onto the base. -/
theorem placed_value (b : Bound) : Placed b [b.value] := by
  obtain ⟨base, attachments⟩ := b
  unfold Bound.value
  dsimp only
  induction attachments generalizing base with
  | nil => exact ⟨by simp [itemNodes], by simp⟩
  | cons x attachments ih =>
    obtain ⟨hbase, hattachments⟩ := ih (base.method x.1 [x.2])
    refine ⟨fun w hw => hbase ?_, List.forall_mem_cons.2 ⟨⟨base, hbase⟩, hattachments⟩⟩
    rw [nodes_method]
    simp [hw]

/-- In a definition the attachments are called on its name. -/
theorem placed_defining (name : String) (b : Bound) : Placed b (Script.exprsOf (Lower.defining name b)) := by
  have hexprs : Script.exprsOf (Lower.defining name b) =
      b.base :: b.attachments.map fun a => (Script.Expr.ident name).method a.1 [a.2] := by
    have hcalls := Script.exprsOf_map_expr (b.attachments.map fun a => (Script.Expr.ident name).method a.1 [a.2])
    rw [List.map_map] at hcalls
    exact congrArg (b.base :: ·) hcalls
  rw [hexprs]
  constructor
  · intro w hw
    simp [itemNodes, hw]
  · intro x hx
    refine ⟨.ident name, fun w hw => ?_⟩
    rw [itemNodes_eq_flatMap, List.mem_flatMap]
    exact ⟨_, List.mem_cons_of_mem _ (List.mem_map_of_mem hx), hw⟩

/-- Where the expression is lowered, its sites are in all code that it is placed in. -/
def Contributing (e : Expr) : Prop := ∀ s b t, e.bound s = (.ok b, t) → ∀ es, Placed b es → Contribute e.sites es

theorem Contributing.lowerValue {e : Expr} (h : Contributing e) :
    ∀ s v t, e.lowerValue s = (.ok v, t) → Contribute e.sites [v] := by
  intro s v t hrun
  rw [lowerValue_eq] at hrun
  obtain ⟨b, hb, rfl⟩ := Lower.map_eq_ok.1 hrun
  exact h s b t hb _ (placed_value b)

theorem Contributing.lowerStep {e : Expr} (h : Contributing e) :
    ∀ s v t, e.lowerStep s = (.ok v, t) → Contribute e.sites [v] := by
  intro s v t hrun
  cases e with
  | identifier name => exact .nil
  | call c => exact h.lowerValue s v t hrun
  | bind target m => exact h.lowerValue s v t hrun
  | _ => exact absurd hrun Lower.fail_ne_ok

theorem contribute_of_steps {es : List Expr} (h : ∀ e ∈ es, Contributing e) {s t : Scope} {vs : List Script.Expr}
    (hrun : RunInOrder (es.map Expr.lowerStep) s vs t) : Contribute (itemSites es) vs := by
  rw [itemSites_eq_flatMap]
  exact contribute_of_run hrun fun e he => (h e he).lowerStep

theorem itemNodes_subset_chained (label : String) (nodes : List Script.Expr) :
    itemNodes nodes ⊆ itemNodes [chained label nodes] := by
  have hfold : ∀ (nodes : List Script.Expr) (e : Script.Expr),
      itemNodes (e :: nodes) ⊆ itemNodes [nodes.foldl (fun e n => e.method "addNode" [n]) e] := by
    intro nodes
    induction nodes with
    | nil => exact fun e => List.Subset.refl _
    | cons n nodes ih =>
      intro e w hw
      apply ih
      rw [itemNodes, nodes_method]
      simp only [itemNodes, List.mem_append, List.mem_cons] at hw ⊢
      rcases hw with hw | hw | hw
      · exact .inl (.inr (.inr (.inl hw)))
      · exact .inl (.inr (.inr (.inr hw)))
      · exact .inr hw
  intro w hw
  apply hfold
  rw [itemNodes]
  exact List.mem_append_right _ hw

theorem contribute_of_routed {cases : List (Expr × List Expr)} (hconditions : ∀ x ∈ cases, WellFormed.Value x.1)
    (hactions : ∀ x ∈ cases, ∀ e ∈ x.2, Contributing e) {label : String} {index : Nat} {s t : Scope}
    {rs : List Script.Expr} (h : Routed label index cases s rs t) : Contribute (caseSites cases) rs := by
  induction h with
  | nil => exact .nil
  | @cons index condition action cases c nodes rs s t u w hc hnodes _ ih =>
    obtain ⟨hcondition, hconditions⟩ := List.forall_mem_cons.1 hconditions
    obtain ⟨haction, hactions⟩ := List.forall_mem_cons.1 hactions
    let branch := chained (label ++ "_case_" ++ index.repr) nodes
    have hroute : itemNodes [c, branch] ⊆ itemNodes (.object [("when", c), ("then", branch)] :: rs) := by
      intro x hx
      rw [itemNodes]
      have hparts := itemNodes_parts_subset (.object [("when", c), ("then", branch)]) hx
      exact List.mem_append_left _ (by simpa [itemNodes] using hparts)
    have hfirst : itemNodes [c] ⊆ itemNodes [c, branch] := itemNodes_subset (by simp)
    have hsecond : itemNodes [branch] ⊆ itemNodes [c, branch] := itemNodes_subset (by simp)
    rw [caseSites]
    refine .append (.append ?_ ?_) ?_
    · exact (contribute_of_value hcondition s c t hc).mono fun x hx => hroute (hfirst hx)
    · exact (contribute_of_steps haction hnodes).mono fun x hx =>
        hroute (hsecond (itemNodes_subset_chained _ nodes hx))
    · exact (ih hconditions hactions).mono (itemNodes_subset (List.subset_cons_self _ _))

theorem contribute_of_fellBack {fallback : Option (List Expr)}
    (hactions : ∀ action ∈ fallback, ∀ e ∈ action, Contributing e) {label : String} {s t : Scope} {v : Script.Expr}
    (h : FellBack label fallback s v t) : Contribute (fallback.elim [] itemSites) [v] := by
  cases h with
  | none => exact .nil
  | @some action nodes s t hnodes =>
    exact (contribute_of_steps (hactions action rfl) hnodes).mono (itemNodes_subset_chained _ nodes)

/-- The sites below a modifier are in what it attaches. -/
theorem contribute_of_attachments {m : Call} (hargs : WellFormed.Args m.args) {s t : Scope}
    {as : List Component.Attachment} (h : m.attachments s = (.ok as, t)) (skip : Option String → Bool) :
    Contribute (argumentSites skip m.args) (as.map Prod.snd) := by
  intro site hsite
  obtain ⟨a, ha, -, hsite⟩ := mem_argumentSites.1 hsite
  have hattached := attached_of_attachments hargs.1 h a ha
  cases hattached with
  | @tools names _ hvalue =>
    have hnone : a.value.sites = [] := by
      rw [hvalue, Expr.sites, itemSites_eq_flatMap, List.flatMap_eq_nil_iff]
      simp [Expr.sites]
    rw [hnone] at hsite
    cases hsite
  | schema _ hlowers =>
    obtain ⟨s', t', hrun⟩ := hlowers
    exact contribute_of_value (hargs.2 a ha) s' _ t' hrun site hsite

/-- What an expression without modifiers has in its value, it has wherever it is placed. -/
theorem contributing_of_lowerValue {e : Expr} (hbind : e.isBind = false)
    (h : ∀ s v t, e.lowerValue s = (.ok v, t) → Contribute e.sites [v]) : Contributing e := by
  intro s b t hrun es hplaced
  obtain ⟨v, hv, rfl⟩ := exists_plain_of_bound hbind hrun
  refine (h s v t hv).mono ?_
  rw [itemNodes, itemNodes, List.append_nil]
  exact hplaced.base

theorem contributing_of_step {e : Expr} (h : WellFormed.Step e) : Contributing e := by
  refine WellFormed.Step.fold (P := Contributing) ?_ ?_ ?_ h
  · intro e he
    exact contributing_of_lowerValue (by cases he <;> rfl) (contribute_of_value he)
  · intro args b hargs hb hcases hfallback
    refine contributing_of_lowerValue rfl fun s v t hrun => ?_
    rw [lowerValue_call] at hrun
    obtain ⟨used, vs, config, u, rs, w, fallback, hconfigured, hvs, hrouted, hfellBack, rfl⟩ := makesRouter_of_lower hrun
    obtain ⟨hconditions, -, -⟩ := hb
    have hvalues := fun a ha => contribute_of_value (hargs.2 a ha)
    have hparts : itemNodes [config, .array rs, fallback] ⊆ itemNodes [.new "Router" [config, .array rs, fallback]] :=
      itemNodes_parts_subset (.new "Router" [config, .array rs, fallback])
    have hconfig : itemNodes [config] ⊆ itemNodes [config, .array rs, fallback] := itemNodes_subset (by simp)
    have hroutes : itemNodes rs ⊆ itemNodes [config, .array rs, fallback] := fun x hx =>
      itemNodes_subset (by simp) (itemNodes_parts_subset (.array rs) hx)
    have hlast : itemNodes [fallback] ⊆ itemNodes [config, .array rs, fallback] := itemNodes_subset (by simp)
    rw [Expr.sites, Call.inner_eq]
    refine .cons ?_ (.append ?_ (.append ?_ ?_))
    · exact ⟨s, t, _, hrun, by simp [itemNodes, Script.Expr.nodes, Keyword.spelling],
        hconfigured.filled hargs.1 (forall₂_of_run hvs) _ (.inr rfl)⟩
    · exact (hconfigured.contribute hargs.1 hvs hvalues _).mono fun x hx => hparts (hconfig hx)
    · exact (contribute_of_routed hconditions hcases hrouted).mono fun x hx => hparts (hroutes hx)
    · exact (contribute_of_fellBack hfallback hfellBack).mono fun x hx => hparts (hlast hx)
  · intro e name args _ ih _ hargs s b t hrun es hplaced
    obtain ⟨b, u, htarget, hrun⟩ := Lower.bind_eq_ok.1 hrun
    obtain ⟨as, w, has, hrun⟩ := Lower.bind_eq_ok.1 hrun
    cases hrun
    have hinner : Placed b es :=
      ⟨hplaced.base, fun x hx => hplaced.attachments x (List.mem_append_left _ hx)⟩
    have hcalls : ∀ x ∈ as, ∃ target : Script.Expr, (target.method x.1 [x.2]).nodes ⊆ itemNodes es :=
      fun x hx => hplaced.attachments x (List.mem_append_right _ hx)
    rw [Expr.sites]
    refine .append ?_ (.cons ?_ ?_)
    · cases e with
      | identifier name => exact .nil
      | call c => exact ih s b u htarget es hinner
      | bind target m => exact ih s b u htarget es hinner
      | _ => exact absurd htarget Lower.fail_ne_ok
    · refine ⟨u, t, as, has, fun x hx => ?_, attached_of_attachments hargs.1 has⟩
      obtain ⟨target, htarget⟩ := hcalls x hx
      exact ⟨target, htarget (by simp [nodes_method])⟩
    · refine (contribute_of_attachments hargs has _).mono fun w hw => ?_
      rw [itemNodes_eq_flatMap, List.mem_flatMap] at hw
      obtain ⟨v, hv, hw⟩ := hw
      obtain ⟨x, hx, rfl⟩ := List.mem_map.1 hv
      obtain ⟨target, htarget⟩ := hcalls x hx
      exact htarget (by simp [nodes_method, hw])

end Steps

namespace Lower

variable {st : Statement} {p : Program} {s t : Scope} {l : Lowered} {ls : List Lowered}

theorem exprsOf_addingNodes (name : String) (es : List Script.Expr) :
    Script.exprsOf (es.map (addingNode name)) = es.map fun e => (Script.Expr.ident name).method "addNode" [e] := by
  induction es with
  | nil => rfl
  | cons e es ih => exact congrArg (_ :: ·) ih

theorem contribute_of_statement (hst : WellFormed.Statement st) (h : statement st s = (.ok l, t)) :
    Contribute st.sites (Script.exprsOf l.definitions) := by
  have hdeclaration := hst.2
  unfold Statement.sites
  cases hdecl : st.declaration with
  | definition value =>
    rw [hdecl] at hdeclaration
    obtain ⟨b, hb, rfl⟩ := definitionValue_of_statement hdecl h
    have hcontributing := contributing_of_step hdeclaration
    cases value with
    | identifier name => exact .nil
    | _ => exact hcontributing _ b t hb _ (placed_defining st.name b)
  | chain steps context =>
    rw [hdecl] at hdeclaration
    obtain ⟨⟨_, hsteps⟩, -⟩ := hdeclaration
    obtain ⟨es, config, u, hes, -, rfl⟩ := chain_of_statement hdecl h
    refine (contribute_of_steps (fun e he => contributing_of_step (hsteps e he)) hes).mono fun w hw => ?_
    dsimp only
    rw [Script.exprsOf, exprsOf_addingNodes, itemNodes_eq_flatMap, List.mem_flatMap]
    rw [itemNodes_eq_flatMap, List.mem_flatMap] at hw
    obtain ⟨e, he, hw⟩ := hw
    refine ⟨(Script.Expr.ident st.name).method "addNode" [e], List.mem_append_right _ (List.mem_map.2 ⟨e, he, rfl⟩), ?_⟩
    simp [nodes_method, hw]
  | schema fields => exact .nil

/-- The memory of a chain is in the code of its context. -/
theorem contribute_of_memory (hst : WellFormed.Statement st) (h : statement st s = (.ok l, t)) {es : List Script.Expr}
    (hes : ∀ c ∈ l.chain, ∀ v ∈ c.memory,
      (Script.Expr.ident (Module.contextName c.name)).method "set" [.str "memory", v] ∈ es) :
    Contribute st.memorySites es := by
  have hdeclaration := hst.2
  unfold Statement.memorySites
  cases hdecl : st.declaration with
  | definition value => exact .nil
  | schema fields => exact .nil
  | chain steps context =>
    cases context with
    | none => exact .nil
    | some context =>
      rw [hdecl] at hdeclaration
      obtain ⟨-, hrouter, hargs⟩ := hdeclaration.2 context rfl
      obtain ⟨_, config, u, -, hconfig, rfl⟩ := chain_of_statement hdecl h
      obtain ⟨v, rfl, hv⟩ := mapM_memory_some hconfig
      obtain ⟨used, vs, w, hconfigured, hvs, -⟩ := configured_of_memory hv
      have hmem := hes ⟨st.name, some v⟩ rfl v rfl
      have hset : ((Script.Expr.ident (Module.contextName st.name)).method "set" [.str "memory", v]).nodes ⊆
          itemNodes es := by
        intro x hx
        rw [itemNodes_eq_flatMap, List.mem_flatMap]
        exact ⟨_, hmem, hx⟩
      obtain ⟨name, args, router⟩ := context
      subst hrouter
      refine .cons ⟨u, t, v, hv, hset (by simp [Script.Expr.method, Script.Expr.nodes]), fun a ha => ?_⟩ ?_
      · exact hconfigured.holds hargs.1 (forall₂_of_run hvs) [] ha
      · refine (hconfigured.contribute hargs.1 hvs (fun a ha => contribute_of_value (hargs.2 a ha)) _).mono fun x hx => ?_
        have hx : x ∈ v.nodes := by simpa [itemNodes] using hx
        exact hset (by simp [Script.Expr.method, Script.Expr.nodes, itemNodes, hx])

/-- Each statement of a program is lowered to what it contributes. -/
theorem statement_of_mem_zip (h : (program p).run s = (.ok ls, t)) :
    ∀ x ∈ p.zip ls, ∃ u v, statement x.1 u = (.ok x.2, v) := by
  induction p generalizing s ls with
  | nil => simp
  | cons st p ih =>
    obtain ⟨l, ls', u, hst, hp, rfl⟩ := program_cons_eq_ok h
    rw [List.zip_cons_cons, List.forall_mem_cons]
    exact ⟨⟨s, u, hst⟩, ih hp⟩

end Lower

namespace Module

variable {options : Options} {p : Program} {s t : Scope} {ls : List Lowered}

theorem exprsOf_block (debug : Bool) (x : Statement × Lowered) :
    Script.exprsOf (block debug x) = Script.exprsOf x.2.definitions := by
  cases debug <;> rfl

/-- The memory of a chain is set in its context. -/
theorem memory_mem_contexts {l : Lowered} (hl : l ∈ ls) {c : ChainEntry} (hc : c ∈ l.chain) {v : Script.Expr}
    (hv : v ∈ c.memory) : (Script.Expr.ident (contextName c.name)).method "set" [.str "memory", v] ∈
      Script.exprsOf (assemble options p ls t).contexts := by
  have hset : setting (contextName c.name) "memory" v ∈ (assemble options p ls t).contexts :=
    (mem_contextsOf (by simp [setting])).2
      (.inr ⟨c, List.mem_filterMap.2 ⟨l, hl, hc⟩, v, hv, List.mem_append_left _ (by simp)⟩)
  rw [Script.exprsOf_eq_flatMap, List.mem_flatMap]
  exact ⟨_, hset, List.mem_singleton_self _⟩

/-- The blocks of a module that is made from lowered statements. -/
theorem definitions_assemble (options : Options) (t : Scope) (hlength : ls.length = p.length) :
    ((p.zip ls).map fun y => (y.1, block options.debug y)).map Prod.fst = p ∧
      (assemble options p ls t).definitions =
        separated (((p.zip ls).map fun y => (y.1, block options.debug y)).map Prod.snd) := by
  rw [List.map_map, List.map_map]
  exact ⟨List.map_fst_zip (le_of_eq hlength.symm), rfl⟩

end Module

/-- Each statement of a program from a source has a block of definitions, in which all its sites are with their
arguments, and its memory is set up with its arguments among the contexts. The only arguments that are not there are
those passed over, because the preferred name for them is given too: a call is lowered as if it did not have them. -/
theorem generate_arguments {source : String} {p : Program} (hp : Program.ofSource source = .ok p) {options : Options}
    {name code : String} (h : (generate options name p).1 = .ok code) :
    (∃ (m : Module) (xs : List (Statement × List Stmt)), (Module.ofProgram options p).1 = .ok m ∧
      code = m.text options name ∧ xs.map Prod.fst = p ∧ m.definitions = Module.separated (xs.map Prod.snd) ∧
      ∀ x ∈ xs, Contribute x.1.sites (Script.exprsOf x.2) ∧ Contribute x.1.memorySites (Script.exprsOf m.contexts)) ∧
    ∀ c : Call, (Call.mk c.name (unshadowed c.name c.args) c.router).lower = c.lower := by
  obtain ⟨m, hm, hcode⟩ := generate_eq_ok h
  obtain ⟨ls, t, hrun, rfl⟩ := Module.ofProgram_eq_ok hm
  obtain ⟨ts, hsentences, hts⟩ := Program.sentences_of_ofSource hp
  have hwellFormed := Grammar.wellFormed_of_sentences hsentences hts
  obtain ⟨hfst, hsnd⟩ := Module.definitions_assemble options t (Lower.length_of_program hrun)
  refine ⟨⟨_, _, hm, hcode, hfst, hsnd, fun x hx => ?_⟩, lower_unshadowed⟩
  obtain ⟨y, hy, rfl⟩ := List.mem_map.1 hx
  obtain ⟨u, v, hst⟩ := Lower.statement_of_mem_zip hrun y hy
  obtain ⟨hst', hl⟩ := List.of_mem_zip (a := y.1) (b := y.2) hy
  rw [Module.exprsOf_block]
  exact ⟨Lower.contribute_of_statement (hwellFormed _ hst') hst,
    Lower.contribute_of_memory (hwellFormed _ hst') hst fun c hc v hv => Module.memory_mem_contexts hl hc hv⟩

def describedSource : String := "def t = Tool(name=\"n\",description=\"a\",desc=\"b\",func=f)"

def describedProgram : Program :=
  [⟨"t", 1, .definition (.call ⟨"Tool", [⟨some "name", .string "n"⟩, ⟨some "description", .string "a"⟩,
    ⟨some "desc", .string "b"⟩, ⟨some "func", .identifier "f"⟩], none⟩)⟩]

def describedTokens : List Token :=
  [⟨.keyword .defKw, "def", ⟨1, 1⟩⟩, ⟨.identifier, "t", ⟨1, 5⟩⟩, ⟨.mark .assign, "=", ⟨1, 7⟩⟩,
    ⟨.keyword .tool, "Tool", ⟨1, 9⟩⟩, ⟨.mark .lparen, "(", ⟨1, 13⟩⟩, ⟨.identifier, "name", ⟨1, 14⟩⟩,
    ⟨.mark .assign, "=", ⟨1, 18⟩⟩, ⟨.string, "\"n\"", ⟨1, 19⟩⟩, ⟨.mark .comma, ",", ⟨1, 22⟩⟩,
    ⟨.identifier, "description", ⟨1, 23⟩⟩, ⟨.mark .assign, "=", ⟨1, 34⟩⟩, ⟨.string, "\"a\"", ⟨1, 35⟩⟩,
    ⟨.mark .comma, ",", ⟨1, 38⟩⟩, ⟨.identifier, "desc", ⟨1, 39⟩⟩, ⟨.mark .assign, "=", ⟨1, 43⟩⟩,
    ⟨.string, "\"b\"", ⟨1, 44⟩⟩, ⟨.mark .comma, ",", ⟨1, 47⟩⟩, ⟨.identifier, "func", ⟨1, 48⟩⟩,
    ⟨.mark .assign, "=", ⟨1, 52⟩⟩, ⟨.identifier, "f", ⟨1, 53⟩⟩, ⟨.mark .rparen, ")", ⟨1, 54⟩⟩, ⟨.eof, "", ⟨1, 55⟩⟩]

theorem ofSource_described : Program.ofSource describedSource = .ok describedProgram := by
  have htokens : Token.tokenize describedSource = .ok describedTokens := rfl
  exact (Program.ofSource_of_tokenize htokens).trans rfl

theorem generate_arguments_described :
    Program.ofSource describedSource = .ok describedProgram ∧
      ∃ m out, (Module.ofProgram .standard describedProgram).1 = .ok m ∧
        .new "Tool" out ∈ Script.nodesOf m.definitions ∧ out[1]? = some (.str "a") := by
  have h : (generate .standard "d" describedProgram).1 = .ok _ := rfl
  obtain ⟨⟨m, xs, hm, -, hfst, hsnd, hsites⟩, -⟩ := generate_arguments ofSource_described h
  refine ⟨ofSource_described, m, ?_⟩
  rcases xs with _ | ⟨⟨st, block⟩, _ | ⟨y, xs⟩⟩
  · cases hfst
  · cases hfst
    obtain ⟨s, t, out, -, hmem, hfilled⟩ := (hsites _ (List.mem_singleton_self _)).1 (.component _) (.head _)
    obtain ⟨v, hstands, hholds⟩ := hfilled ⟨some "description", .string "a"⟩ (by simp) rfl
    refine ⟨out, hm, ?_, ?_⟩
    · rw [hsnd]
      exact hmem
    · cases hstands with
      | kind hkind _ => cases hkind
      | template hprompt _ => exact absurd hprompt (by decide)
      | value _ _ hlowers =>
        obtain ⟨u, w, hlowers⟩ := hlowers
        cases hlowers
        exact hholds
  · cases hfst

def describedModule : Module :=
  ⟨["Tool"], [.const "t" (.new "Tool" [.str "n", .str "a", .ident "f", Component.schemaOf []])], [], []⟩

/-- The second description is nowhere in the module, and there is no warning. -/
theorem described_dropped :
    Program.ofSource describedSource = .ok describedProgram ∧
      Module.ofProgram .standard describedProgram = (.ok describedModule, []) ∧
      .str "b" ∉ Script.nodesOf (describedModule.definitions ++ describedModule.contexts ++ describedModule.helpers) := by
  refine ⟨ofSource_described, rfl, ?_⟩
  simp [describedModule, Script.nodesOf, Script.exprsOf, Script.Stmt.exprs, itemNodes, Script.Expr.nodes,
    Component.schemaOf, Script.fieldNodes]

end ChainCompiler
