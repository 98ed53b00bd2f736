import ChainCompiler.Proofs.Lowering.Binds
import ChainCompiler.Proofs.WellFormed

/-! How a component is put together. A call that succeeds lowers some of its arguments, in an order of its own, and puts
their values into an instance; a router does so with its branches too. What follows says this once, for all that is
proved of lowered calls. -/

namespace ChainCompiler

open Lower (bind_of_ok bind_eq_ok map_eq_ok need_apply fail_ne_ok)

namespace Argument

def lower (a : Argument) : Lower Script.Expr := a.value.lowerValue

def findAny? (args : List Argument) (names : List String) : Option Argument :=
  names.findSome? fun n => args.find? (·.isNamed n)

/-- The argument is a field: it has a name, other than those to skip. -/
def isField (skip : List String) (a : Argument) : Bool := a.name.any fun n => !skip.contains n

/-- What is found where arguments can have a single name: the first with it, or the only one if it has none. -/
structure IsOnly (args : List Argument) (name : String) (a : Argument) : Prop where
  names : ∀ b ∈ args, ∀ n, b.name = some n → n = name
  found : args.find? (·.isNamed name) = some a ∨ args = [a] ∧ a.name = none

theorem IsOnly.mem {args : List Argument} {name : String} {a : Argument} (h : IsOnly args name a) : a ∈ args := by
  rcases h.found with hfind | ⟨hargs, -⟩
  · exact List.mem_of_find?_eq_some hfind
  · exact hargs ▸ List.mem_singleton_self a

/-- Where no two arguments have one name, it is the only argument. -/
theorem IsOnly.eq_singleton {args : List Argument} {name : String} {a : Argument} (h : IsOnly args name a)
    (hshape : WellFormed.Shape args) : args = [a] := by
  have ha := h.mem
  rcases hshape with rfl | ⟨e, rfl⟩ | ⟨hnamed, hnodup⟩
  · cases ha
  · rw [List.mem_singleton.1 ha]
  · have hname : ∀ b ∈ args, b.name = some name := by
      intro b hb
      obtain ⟨n, hn⟩ := Option.ne_none_iff_exists'.1 (hnamed b hb)
      rw [hn, h.names b hb n hn]
    rcases args with _ | ⟨b, _ | ⟨c, args⟩⟩
    · cases ha
    · rw [List.mem_singleton.1 ha]
    · rw [List.map_cons, List.map_cons, hname b (by simp), hname c (by simp)] at hnodup
      simp at hnodup

end Argument

namespace Operand

variable {args : List Argument} {s t : Scope}

theorem sole?_operands {o : Operand} (h : sole? (operands args) = some o) :
    ∃ e, args = [⟨none, e⟩] ∧ o = Argument.operand ⟨none, e⟩ := by
  rw [operands_eq_map] at h
  rcases args with _ | ⟨⟨_ | n, e⟩, _ | ⟨a, args⟩⟩ <;> cases h
  exact ⟨e, rfl, rfl⟩

theorem ne_of_sole?_eq_none (h : sole? (operands args) = none) (e : Expr) : args ≠ [⟨none, e⟩] := by
  rintro rfl
  cases h

theorem find?_operands (name : String) :
    find? (operands args) name = (args.find? (·.isNamed name)).map Argument.operand := by
  rw [operands_eq_map]
  exact List.find?_map

theorem findAny?_operands (names : List String) :
    findAny? (operands args) names = (Argument.findAny? args names).map Argument.operand := by
  unfold findAny? Argument.findAny?
  induction names with
  | nil => rfl
  | cons n names ih =>
    rw [List.findSome?_cons, List.findSome?_cons, find?_operands, ih]
    cases args.find? (·.isNamed n) <;> rfl

/-- No named argument is unknown. -/
theorem mem_of_unknown? {allowed : List String} (h : unknown? (operands args) allowed = none) {a : Argument}
    (ha : a ∈ args) {n : String} (hn : a.name = some n) : n ∈ allowed := by
  have hall := List.find?_eq_none.1 h n
  rw [operands_eq_map, List.filterMap_map] at hall
  simpa using hall (List.mem_filterMap.2 ⟨a, ha, hn⟩)

theorem rejectUnknown_eq_ok {call : String} {ops : List Operand} {allowed : List String}
    (h : rejectUnknown call ops allowed s = (.ok (), t)) : unknown? ops allowed = none ∧ t = s := by
  unfold rejectUnknown at h
  cases hunknown : unknown? ops allowed with
  | some n =>
    rw [hunknown] at h
    exact absurd h fail_ne_ok
  | none =>
    rw [hunknown] at h
    cases h
    exact ⟨rfl, rfl⟩

/-- An argument that is found, or else the only one, if it has no name. -/
theorem exists_of_orElse_sole? {x : Option Argument} {o : Operand}
    (h : (x.map Argument.operand <|> sole? (operands args)) = some o) :
    ∃ a, o = a.operand ∧ (x = some a ∨ args = [a] ∧ a.name = none) := by
  cases x with
  | some a =>
    cases h
    exact ⟨a, rfl, .inl rfl⟩
  | none =>
    obtain ⟨e, rfl, rfl⟩ := sole?_operands h
    exact ⟨_, rfl, .inr ⟨rfl, rfl⟩⟩

/-- Where a single name is allowed, what is found is the argument with it or the only one. -/
theorem isOnly_of_found {name : String} (hunknown : unknown? (operands args) [name] = none) {o : Operand}
    (h : (find? (operands args) name <|> sole? (operands args)) = some o) :
    ∃ a, o = a.operand ∧ Argument.IsOnly args name a := by
  rw [find?_operands] at h
  obtain ⟨a, rfl, hfound⟩ := exists_of_orElse_sole? h
  exact ⟨a, rfl, fun b hb n hn => List.mem_singleton.1 (mem_of_unknown? hunknown hb hn), hfound⟩

/-- The fields are lowered in order, each under its name. -/
theorem fields_eq_ok {skip : List String} {fs : List (String × Script.Expr)}
    (h : fields skip (operands args) s = (.ok fs, t)) :
    RunInOrder ((args.filter (·.isField skip)).map Argument.lower) s (fs.map Prod.snd) t ∧
      (args.filter (·.isField skip)).map Argument.name = fs.map fun f => some f.1 := by
  induction args generalizing s fs with
  | nil =>
    cases h
    exact ⟨.nil, rfl⟩
  | cons a args ih =>
    obtain ⟨_ | n, e⟩ := a
    · exact ih h
    · rw [operands, fields] at h
      dsimp only at h
      split at h
      · next hskip =>
        rw [List.filter_cons_of_neg (by simpa [Argument.isField] using hskip)]
        exact ih h
      · next hskip =>
        obtain ⟨v, u, hv, h⟩ := bind_eq_ok.1 h
        obtain ⟨fs', w, hfs, h⟩ := bind_eq_ok.1 h
        cases h
        obtain ⟨hrun, hnames⟩ := ih hfs
        rw [List.filter_cons_of_pos (by simpa [Argument.isField] using hskip)]
        exact ⟨.cons hv hrun, congrArg (_ :: ·) hnames⟩

end Operand

/-- What the arguments of a configuration make: the only one if it has no name, else an object of the named ones. The
arguments `used` are those that are lowered, to the values `vs`. -/
inductive Configured (args : List Argument) : List Argument → List Script.Expr → Script.Expr → Prop
  | sole {e v} : args = [⟨none, e⟩] → Configured args args [v] v
  | fields {fs : List (String × Script.Expr)} : (∀ e, args ≠ [⟨none, e⟩]) →
      (args.filter (·.isField [])).map Argument.name = fs.map (fun f => some f.1) →
      Configured args (args.filter (·.isField [])) (fs.map Prod.snd) (.object fs)

def toolNames : List String := ["name", "description", "desc", "handler", "func", "schema"]

/-- What the arguments of a call that makes a component without branches are arranged to: the arguments of the instance.
The arguments `used` are those that are lowered, to the values `vs`. -/
inductive Arranged (args : List Argument) : String → List Argument → List Script.Expr → List Script.Expr → Prop
  | empty : args = [] → Arranged args "Model" [] [] []
  | model {used vs v} : Configured args used vs v → Arranged args "Model" used vs [v]
  | tool {name handler : Argument} {description schema : Option Argument} {n h : Script.Expr}
      {d c : Option Script.Expr} :
      (∀ a ∈ args, ∀ n, a.name = some n → n ∈ toolNames) →
      args.find? (·.isNamed "name") = some name → Argument.findAny? args ["handler", "func"] = some handler →
      Argument.findAny? args ["description", "desc"] = description → args.find? (·.isNamed "schema") = schema →
      d.isSome = description.isSome → c.isSome = schema.isSome →
      Arranged args "Tool" (name :: (description.toList ++ handler :: schema.toList))
        (n :: (d.toList ++ h :: c.toList)) [n, d.getD (.str ""), h, c.getD (Component.schemaOf [])]
  | text {a : Argument} {text} : Argument.IsOnly args "template" a → a.value = .string text →
      Arranged args "Prompt" [] [] (Component.templateArgs text)
  | placeholder {a : Argument} {name} : Argument.IsOnly args "template" a → a.value = .templateVar name →
      Arranged args "Prompt" [] [] [.str (Component.placeholder name), .array [.str name]]
  | prompt {a : Argument} {v} : Argument.IsOnly args "template" a → (∀ text, a.value ≠ .string text) →
      Arranged args "Prompt" [a] [v] [v]
  | builtin {a : Argument} {kind} {fs : List (String × Script.Expr)} :
      (Argument.findAny? args ["kind", "type"] = some a ∨ args = [a] ∧ a.name = none) →
      (a.value = .string kind ∨ a.value = .identifier kind) →
      (args.filter (·.isField ["kind", "type"])).map Argument.name = fs.map (fun f => some f.1) →
      Arranged args "Builtin" (args.filter (·.isField ["kind", "type"])) (fs.map Prod.snd)
        (.str kind :: if fs.isEmpty then [] else [.object fs])
  | router {used vs config} : Configured args used vs config →
      Arranged args "Router" used vs [config, .array [], .null]
  | endpoint {name} : Lower.isEndpoint name = true → args = [] → Arranged args name [] [] []

theorem Configured.mem_args {args used : List Argument} {vs : List Script.Expr} {v : Script.Expr}
    (h : Configured args used vs v) : ∀ a ∈ used, a ∈ args := by
  cases h with
  | sole _ => exact fun _ ha => ha
  | fields _ _ => exact fun _ ha => (List.mem_filter.1 ha).1

theorem Argument.mem_of_findAny? {args : List Argument} {names : List String} {a : Argument}
    (h : findAny? args names = some a) : a ∈ args := by
  obtain ⟨n, -, hn⟩ := List.exists_of_findSome?_eq_some h
  exact List.mem_of_find?_eq_some hn

/-- Only arguments of the call are lowered. -/
theorem Arranged.mem_args {args used : List Argument} {component : String} {vs out : List Script.Expr}
    (h : Arranged args component used vs out) : ∀ a ∈ used, a ∈ args := by
  cases h with
  | empty _ => simp
  | model h => exact h.mem_args
  | tool _ hname hhandler hdescription hschema _ _ =>
    intro a ha
    simp only [List.mem_cons, List.mem_append, Option.mem_toList] at ha
    rcases ha with rfl | ha | rfl | ha
    · exact List.mem_of_find?_eq_some hname
    · exact Argument.mem_of_findAny? (hdescription.trans ha)
    · exact Argument.mem_of_findAny? hhandler
    · exact List.mem_of_find?_eq_some (hschema.trans ha)
  | text _ _ => simp
  | placeholder _ _ => simp
  | prompt honly _ => simpa using honly.mem
  | builtin _ _ _ => exact fun _ ha => (List.mem_filter.1 ha).1
  | router h => exact h.mem_args
  | endpoint _ _ => simp

def chained (label : String) (nodes : List Script.Expr) : Script.Expr :=
  nodes.foldl (fun e n => e.method "addNode" [n]) (.new "Chain" [.str label])

section Calls

variable {args : List Argument} {s t : Scope} {e : Script.Expr}

theorem configured_of_config (h : Operand.config (operands args) s = (.ok e, t)) :
    ∃ used vs, Configured args used vs e ∧ RunInOrder (used.map Argument.lower) s vs t := by
  unfold Operand.config at h
  cases hsole : Operand.sole? (operands args) with
  | some o =>
    obtain ⟨e', rfl, rfl⟩ := Operand.sole?_operands hsole
    rw [hsole] at h
    exact ⟨_, [e], .sole rfl, .cons h .nil⟩
  | none =>
    rw [hsole] at h
    obtain ⟨fs, u, hfs, h⟩ := bind_eq_ok.1 h
    cases h
    obtain ⟨hrun, hnames⟩ := Operand.fields_eq_ok hfs
    exact ⟨_, _, .fields (Operand.ne_of_sole?_eq_none hsole) hnames, hrun⟩

/-- The call makes an instance of the component, arranged from what its arguments are lowered to. -/
def Makes (component : String) (args : List Argument) (s : Scope) (e : Script.Expr) (t : Scope) : Prop :=
  ∃ used vs out, Arranged args component used vs out ∧
    RunInOrder (used.map Argument.lower) (s.note component) vs t ∧ e = .new component out

theorem model_makes (h : Component.model (operands args) s = (.ok e, t)) : Makes "Model" args s e t := by
  unfold Component.model at h
  simp only [pure_bind] at h
  rw [bind_of_ok _ (need_apply _ s)] at h
  cases hsole : Operand.sole? (operands args) with
  | some o =>
    obtain ⟨e', rfl, rfl⟩ := Operand.sole?_operands hsole
    rw [hsole] at h
    obtain ⟨v, u, hv, h⟩ := bind_eq_ok.1 h
    cases h
    exact ⟨_, [v], [v], .model (.sole rfl), .cons hv .nil, rfl⟩
  | none =>
    rw [hsole] at h
    dsimp only at h
    split at h
    · next hempty =>
      cases h
      have hnil : args = [] := by
        rw [operands_eq_map] at hempty
        simpa using hempty
      exact ⟨[], [], [], .empty hnil, .nil, rfl⟩
    · obtain ⟨fs, u, hfs, h⟩ := bind_eq_ok.1 h
      cases h
      obtain ⟨hrun, hnames⟩ := Operand.fields_eq_ok hfs
      exact ⟨_, _, _, .model (.fields (Operand.ne_of_sole?_eq_none hsole) hnames), hrun, rfl⟩

/-- An argument that may be absent is lowered if it is there. -/
theorem valueOr_eq_ok {o : Option Argument} {absent : Script.Expr}
    (h : Component.valueOr (o.map Argument.operand) absent s = (.ok e, t)) :
    ∃ v : Option Script.Expr, v.isSome = o.isSome ∧ e = v.getD absent ∧
      RunInOrder (o.toList.map Argument.lower) s v.toList t := by
  cases o with
  | none =>
    cases h
    exact ⟨none, rfl, rfl, .nil⟩
  | some a => exact ⟨some e, rfl, rfl, .cons h .nil⟩

theorem RunInOrder.append {xs ys : List (Lower Script.Expr)} {s t u : Scope} {es fs : List Script.Expr}
    (h : RunInOrder xs s es t) (h' : RunInOrder ys t fs u) : RunInOrder (xs ++ ys) s (es ++ fs) u := by
  induction h with
  | nil => exact h'
  | cons hx _ ih => exact .cons hx (ih h')

theorem tool_makes (h : Component.tool (operands args) s = (.ok e, t)) : Makes "Tool" args s e t := by
  unfold Component.tool at h
  rw [bind_of_ok _ (need_apply _ s)] at h
  obtain ⟨_, u, hreject, h⟩ := bind_eq_ok.1 h
  obtain ⟨hunknown, rfl⟩ := Operand.rejectUnknown_eq_ok hreject
  simp only [Operand.find?_operands, Operand.findAny?_operands] at h
  cases hname : args.find? (·.isNamed "name") with
  | none =>
    rw [hname] at h
    exact absurd h fail_ne_ok
  | some name =>
  cases hhandler : Argument.findAny? args ["handler", "func"] with
  | none =>
    rw [hname, hhandler] at h
    exact absurd h fail_ne_ok
  | some handler =>
  rw [hname, hhandler] at h
  obtain ⟨n, u₁, hn, h⟩ := bind_eq_ok.1 h
  obtain ⟨v₂, u₂, h₂, h⟩ := bind_eq_ok.1 h
  obtain ⟨v₃, u₃, h₃, h⟩ := bind_eq_ok.1 h
  obtain ⟨v₄, u₄, h₄, h⟩ := bind_eq_ok.1 h
  cases h
  obtain ⟨d, hd, rfl, hdrun⟩ := valueOr_eq_ok h₂
  obtain ⟨c, hc, rfl, hcrun⟩ := valueOr_eq_ok h₄
  refine ⟨_, _, _, .tool (fun a ha m hm => Operand.mem_of_unknown? hunknown ha hm) hname hhandler rfl rfl hd hc, ?_, rfl⟩
  rw [List.map_cons, List.map_append, List.map_cons]
  exact .cons hn (hdrun.append (.cons h₃ hcrun))

theorem prompt_makes (h : Component.prompt (operands args) s = (.ok e, t)) : Makes "Prompt" args s e t := by
  unfold Component.prompt at h
  simp only [pure_bind] at h
  rw [bind_of_ok _ (need_apply _ s)] at h
  obtain ⟨_, u, hreject, h⟩ := bind_eq_ok.1 h
  obtain ⟨hunknown, rfl⟩ := Operand.rejectUnknown_eq_ok hreject
  cases htemplate : (Operand.find? (operands args) "template" <|> Operand.sole? (operands args)) with
  | none =>
    rw [htemplate] at h
    exact absurd h fail_ne_ok
  | some o =>
  obtain ⟨a, rfl, honly⟩ := Operand.isOnly_of_found hunknown htemplate
  rw [htemplate] at h
  obtain ⟨name, value⟩ := a
  cases value with
  | string text =>
    cases h
    exact ⟨[], [], _, .text honly rfl, .nil, rfl⟩
  | templateVar name =>
    cases h
    exact ⟨[], [], _, .placeholder honly rfl, .nil, rfl⟩
  | _ =>
    obtain ⟨v, w, hv, h⟩ := bind_eq_ok.1 h
    cases h
    exact ⟨_, [v], [v], .prompt honly (by simp), .cons hv .nil, rfl⟩

theorem builtin_makes (h : Component.builtin (operands args) s = (.ok e, t)) : Makes "Builtin" args s e t := by
  unfold Component.builtin at h
  simp only [pure_bind] at h
  rw [bind_of_ok _ (need_apply _ s)] at h
  cases hkind : (Operand.findAny? (operands args) ["kind", "type"] <|> Operand.sole? (operands args)) with
  | none =>
    rw [hkind] at h
    exact absurd h fail_ne_ok
  | some o =>
  rw [hkind] at h
  rw [Operand.findAny?_operands] at hkind
  obtain ⟨a, rfl, hfound⟩ := Operand.exists_of_orElse_sole? hkind
  have hconfig : ∀ kind, (a.value = .string kind ∨ a.value = .identifier kind) →
      (do let config ← Operand.fields ["kind", "type"] (operands args)
          pure (Script.Expr.new "Builtin" (.str kind :: if config.isEmpty then [] else [.object config])) :
        Lower Script.Expr) (s.note "Builtin") = (.ok e, t) → Makes "Builtin" args s e t := by
    intro kind hvalue h
    obtain ⟨fs, u, hfs, h⟩ := bind_eq_ok.1 h
    cases h
    obtain ⟨hrun, hnames⟩ := Operand.fields_eq_ok hfs
    exact ⟨_, _, _, .builtin hfound hvalue hnames, hrun, rfl⟩
  obtain ⟨name, value⟩ := a
  cases value with
  | string kind => exact hconfig kind (.inl rfl) h
  | identifier kind => exact hconfig kind (.inr rfl) h
  | _ =>
    obtain ⟨_, u, hfail, -⟩ := bind_eq_ok.1 h
    exact absurd hfail fail_ne_ok

theorem addNodes_eq_ok {chain : Script.Expr} {steps : Component.Steps}
    (h : Component.addNodes chain steps s = (.ok e, t)) :
    ∃ nodes, RunInOrder steps s nodes t ∧ e = nodes.foldl (fun e n => e.method "addNode" [n]) chain := by
  induction steps generalizing chain s with
  | nil =>
    cases h
    exact ⟨[], .nil, rfl⟩
  | cons step steps ih =>
    obtain ⟨node, u, hnode, h⟩ := bind_eq_ok.1 h
    obtain ⟨nodes, hnodes, rfl⟩ := ih h
    exact ⟨node :: nodes, .cons hnode hnodes, rfl⟩

theorem branch_eq_ok {label : String} {action : List Expr}
    (h : Component.branch label (pipelineSteps action) s = (.ok e, t)) :
    ∃ nodes, RunInOrder (action.map Expr.lowerStep) (s.note "Chain") nodes t ∧ e = chained label nodes := by
  unfold Component.branch at h
  rw [bind_of_ok _ (need_apply _ s), pipelineSteps_eq_map] at h
  exact addNodes_eq_ok h

/-- What the cases of a router with a label are lowered to, from one of them on: for each a route with its condition and
its branch. -/
inductive Routed (label : String) : Nat → List (Expr × List Expr) → Scope → List Script.Expr → Scope → Prop
  | nil {index} {s : Scope} : Routed label index [] s [] s
  | cons {index condition action cases c nodes rs} {s t u w : Scope} : condition.lowerValue s = (.ok c, t) →
      RunInOrder (action.map Expr.lowerStep) (t.note "Chain") nodes u → Routed label (index + 1) cases u rs w →
      Routed label index ((condition, action) :: cases) s
        (.object [("when", c), ("then", chained (label ++ "_case_" ++ index.repr) nodes)] :: rs) w

theorem routed_of_routes {label : String} {index : Nat} {cases : List (Expr × List Expr)} {rs : List Script.Expr}
    (h : Component.routes label index (routerCases cases) s = (.ok rs, t)) : Routed label index cases s rs t := by
  induction cases generalizing index s rs with
  | nil =>
    cases h
    exact .nil
  | cons x cases ih =>
    obtain ⟨condition, action⟩ := x
    rw [routerCases, Component.routes] at h
    obtain ⟨c, u, hc, h⟩ := bind_eq_ok.1 h
    obtain ⟨b, v, hb, h⟩ := bind_eq_ok.1 h
    obtain ⟨rs', w, hrs, h⟩ := bind_eq_ok.1 h
    cases h
    obtain ⟨nodes, hnodes, rfl⟩ := branch_eq_ok hb
    exact .cons hc hnodes (ih hrs)

inductive FellBack (label : String) : Option (List Expr) → Scope → Script.Expr → Scope → Prop
  | none {s : Scope} : FellBack label none s .null s
  | some {action nodes} {s t : Scope} : RunInOrder (action.map Expr.lowerStep) (s.note "Chain") nodes t →
      FellBack label (some action) s (chained (label ++ "_default") nodes) t

/-- The call makes a router: its configuration is lowered first, then it is counted, and its branches are lowered. -/
def MakesRouter (args : List Argument) (b : RouterBlock) (s : Scope) (e : Script.Expr) (t : Scope) : Prop :=
  ∃ used vs config u rs w fallback, Configured args used vs config ∧
    RunInOrder (used.map Argument.lower) (s.note "Router") vs u ∧ Routed u.count.label 0 b.cases u.count rs w ∧
    FellBack u.count.label b.fallback w fallback t ∧ e = .new "Router" [config, .array rs, fallback]

theorem router_makes {b : RouterBlock}
    (h : Component.router (operands args) (routerCases b.cases) (b.fallback.map pipelineSteps) s = (.ok e, t)) :
    MakesRouter args b s e t := by
  obtain ⟨cases, fallback⟩ := b
  unfold Component.router at h
  simp only [pure_bind] at h
  rw [bind_of_ok _ (need_apply _ s)] at h
  obtain ⟨config, u, hconfig, h⟩ := bind_eq_ok.1 h
  rw [bind_of_ok _ (Lower.routerLabel_apply u)] at h
  obtain ⟨rs, w, hrs, h⟩ := bind_eq_ok.1 h
  obtain ⟨used, vs, hconfigured, hrun⟩ := configured_of_config hconfig
  have hrouted := routed_of_routes hrs
  cases fallback with
  | none =>
    cases h
    exact ⟨used, vs, config, u, rs, _, _, hconfigured, hrun, hrouted, .none, rfl⟩
  | some action =>
    obtain ⟨b, v, hb, h⟩ := bind_eq_ok.1 h
    cases h
    obtain ⟨nodes, hnodes, rfl⟩ := branch_eq_ok hb
    exact ⟨used, vs, config, u, rs, w, _, hconfigured, hrun, hrouted, .some hnodes, rfl⟩

/-- A call that succeeds makes a router or an instance of another component; that takes no branches. -/
theorem Call.lower_cases {c : Call} (h : c.lower s = (.ok e, t)) :
    c.name = "Router" ∧ MakesRouter c.args c.block s e t ∨ Makes c.name c.args s e t := by
  obtain ⟨name, args, router⟩ := c
  rw [Call.lower_eq] at h
  dsimp only at h ⊢
  unfold Component.call at h
  split at h
  · next hname =>
    subst hname
    exact .inr (model_makes h)
  split at h
  · next hname =>
    subst hname
    exact .inr (tool_makes h)
  split at h
  · next hname =>
    subst hname
    exact .inr (prompt_makes h)
  split at h
  · next hname =>
    subst hname
    exact .inr (builtin_makes h)
  split at h
  · next hname => exact .inl ⟨hname, router_makes h⟩
  split at h
  · next hendpoint =>
    rw [Bool.and_eq_true] at hendpoint
    rw [Lower.reference_endpoint hendpoint.1] at h
    cases h
    have hnil : args = [] := by
      have hempty := hendpoint.2
      rw [operands_eq_map] at hempty
      simpa using hempty
    exact .inr ⟨[], [], [], .endpoint hendpoint.1 hnil, .nil, rfl⟩
  · exact absurd h fail_ne_ok

/-- A call with a router block that succeeds makes a router. -/
theorem makesRouter_of_lower {b : RouterBlock}
    (h : (Call.mk Keyword.router.spelling args (some b)).lower s = (.ok e, t)) : MakesRouter args b s e t := by
  rw [Call.lower_eq] at h
  exact router_makes h

/-- A call without branches that succeeds makes an instance; a router is also counted. -/
theorem makes_of_lower {name : String} (h : (Call.mk name args none).lower s = (.ok e, t)) :
    ∃ u, Makes name args s e u ∧ (t = u ∨ t = u.count) := by
  rcases Call.lower_cases h with ⟨hname, hrouter⟩ | hmakes
  · obtain ⟨used, vs, config, u, rs, w, fallback, hconfigured, hrun, hrouted, hfallback, rfl⟩ := hrouter
    cases hname
    cases hrouted
    cases hfallback
    exact ⟨u, ⟨used, vs, _, .router hconfigured, hrun, rfl⟩, .inr rfl⟩
  · exact ⟨t, hmakes, .inl rfl⟩

end Calls

section Values

variable {s t : Scope}

theorem lowerValue_identifier (name : String) : (Expr.identifier name).lowerValue = Lower.reference name false := by
  rw [Expr.lowerValue]

theorem lowerValue_call (c : Call) : (Expr.call c).lowerValue = c.lower := by
  rw [Expr.lowerValue]

theorem lowerItems_eq_ok {es : List Expr} {vs : List Script.Expr} (h : lowerItems es s = (.ok vs, t)) :
    RunInOrder (es.map Expr.lowerValue) s vs t := by
  induction es generalizing s vs with
  | nil =>
    cases h
    exact .nil
  | cons e es ih =>
    obtain ⟨b, u, hb, h⟩ := bind_eq_ok.1 h
    obtain ⟨vs', w, hvs, h⟩ := bind_eq_ok.1 h
    cases h
    exact .cons hb (ih hvs)

theorem lowerEntries_eq_ok {entries : List (String × Expr)} {fs : List (String × Script.Expr)}
    (h : lowerEntries entries s = (.ok fs, t)) :
    RunInOrder (entries.map fun x => x.2.lowerValue) s (fs.map Prod.snd) t := by
  induction entries generalizing s fs with
  | nil =>
    cases h
    exact .nil
  | cons x entries ih =>
    obtain ⟨b, u, hb, h⟩ := bind_eq_ok.1 h
    obtain ⟨fs', w, hfs, h⟩ := bind_eq_ok.1 h
    cases h
    exact .cons hb (ih hfs)

theorem lowerValue_list {items : List Expr} {v : Script.Expr} (h : (Expr.list items).lowerValue s = (.ok v, t)) :
    ∃ vs, RunInOrder (items.map Expr.lowerValue) s vs t ∧ v = .array vs := by
  rw [Expr.lowerValue] at h
  obtain ⟨vs, u, hvs, h⟩ := bind_eq_ok.1 h
  cases h
  exact ⟨vs, lowerItems_eq_ok hvs, rfl⟩

theorem lowerValue_object {entries : List (String × Expr)} {v : Script.Expr}
    (h : (Expr.object entries).lowerValue s = (.ok v, t)) :
    ∃ fs : List (String × Script.Expr),
      RunInOrder (entries.map fun x => x.2.lowerValue) s (fs.map Prod.snd) t ∧ v = .object fs := by
  rw [Expr.lowerValue] at h
  obtain ⟨fs, u, hfs, h⟩ := bind_eq_ok.1 h
  cases h
  exact ⟨fs, lowerEntries_eq_ok hfs, rfl⟩

/-- An expression without modifiers has no attachments. -/
theorem exists_plain_of_bound {e : Expr} (h : e.isBind = false) {b : Bound} (hrun : e.bound s = (.ok b, t)) :
    ∃ v, e.lowerValue s = (.ok v, t) ∧ b = .plain v := by
  have hbound : e.bound = Bound.plain <$> e.lowerValue := by
    cases e with
    | bind target m => cases h
    | _ => rfl
  rw [hbound] at hrun
  obtain ⟨v, hv, rfl⟩ := map_eq_ok.1 hrun
  exact ⟨v, hv, rfl⟩

end Values

/-- The argument of a modifier is one of its arguments. -/
theorem Call.exists_of_argument? {c : Call} {name : String} {e : Expr} (h : c.argument? name = some e) :
    ∃ a ∈ c.args, a.value = e := by
  unfold argument? at h
  split at h
  · next a hfind =>
    cases h
    exact ⟨a, List.mem_of_find?_eq_some hfind, rfl⟩
  · next hargs =>
    cases h
    exact ⟨_, by rw [hargs]; exact List.mem_singleton_self _, rfl⟩
  · cases h

namespace Lower

variable {st : Statement} {s t : Scope} {l : Lowered}

/-- A memory is what its arguments configure. -/
theorem configured_of_memory {context : Call} {config : Script.Expr} (h : memory context s = (.ok config, t)) :
    ∃ used vs u, Configured context.args used vs config ∧ RunInOrder (used.map Argument.lower) s vs u ∧
      t = u.note "ChainContext" := by
  unfold memory at h
  split at h
  · obtain ⟨_, u, hfail, -⟩ := bind_eq_ok.1 h
    exact absurd hfail fail_ne_ok
  · obtain ⟨v, u, hv, h⟩ := bind_eq_ok.1 h
    cases h
    obtain ⟨used, vs, hconfigured, hrun⟩ := configured_of_config hv
    exact ⟨used, vs, u, hconfigured, hrun, rfl⟩

end Lower

end ChainCompiler
