import ChainCompiler.Proofs.Lowering.Arrangement
import ChainCompiler.Proofs.Script.Nodes
import Mathlib.Data.List.Nodup

/-! Where the arguments of a call get to. Each component has a place for each argument that it takes, in the instance
that it makes. Two components take an argument under two names, and if both are given, the one with the second name gets
nowhere: here is said which argument has which place, and that the others leave no trace. -/

namespace ChainCompiler

namespace Component

/-- The arguments that have two names: the component, the second name and the one that is preferred. -/
def aliases : List (String × String × String) :=
  [("Tool", "desc", "description"), ("Tool", "func", "handler"), ("Builtin", "type", "kind")]

/-- An argument of the name is passed over, since the preferred name for it is given too. -/
def isShadowed (component : String) (args : List Argument) (name : Option String) : Bool :=
  aliases.any fun x => x.1 == component && name == some x.2.1 && args.any (·.isNamed x.2.2)

def isKind (component : String) (name : Option String) : Bool :=
  component == "Builtin" && (name == none || name == some "kind" || name == some "type")

end Component

open Component (isShadowed isKind)
open Script (itemNodes itemNodes_eq_flatMap fieldNodes_eq)

/-- A place in an instance: one of its arguments, or a field of one. -/
inductive Slot where
  | argument (index : Nat)
  | field (index : Nat) (key : String)
  deriving DecidableEq, Repr

namespace Slot

/-- The value is at the place in an instance with the arguments `out`. -/
def Holds (out : List Script.Expr) (v : Script.Expr) : Slot → Prop
  | argument index => out[index]? = some v
  | field index key => ∃ fs, out[index]? = some (.object fs) ∧ (key, v) ∈ fs

/-- The place in a configuration, which is the first argument: all of it, or a field. -/
def config : Option String → Slot
  | none => argument 0
  | some key => field 0 key

/-- The places of a tool, each with the names of the argument that gets there. -/
def toolPlaces : List (List String) := [["name"], ["description", "desc"], ["handler", "func"], ["schema"]]

def of (component : String) (name : Option String) : Slot :=
  if component = "Tool" then argument (toolPlaces.findIdx fun names => name.any names.contains)
  else if component = "Prompt" then argument 0
  else if component = "Builtin" then
    if isKind component name then argument 0 else field 1 (name.getD "")
  else config name

end Slot

/-- The expression is lowered to the value, in some scope. -/
def Lowers (e : Expr) (v : Script.Expr) : Prop := ∃ s t, e.lowerValue s = (.ok v, t)

/-- What stands for an argument of a component: the name of a kind, the text of a template, or the lowered value. -/
inductive StandsFor (component : String) (a : Argument) : Script.Expr → Prop
  | kind {name} : isKind component a.name = true → (a.value = .string name ∨ a.value = .identifier name) →
      StandsFor component a (.str name)
  | template {text} : component = "Prompt" → a.value = .string text →
      StandsFor component a (.str (Template.normalize text))
  | value {v} : isKind component a.name = false → (component = "Prompt" → ∀ text, a.value ≠ .string text) →
      Lowers a.value v → StandsFor component a v

/-- Each argument of the component that is not passed over stands at its place in the instance. -/
def Filled (component : String) (args : List Argument) (out : List Script.Expr) : Prop :=
  ∀ a ∈ args, isShadowed component args a.name = false →
    ∃ v, StandsFor component a v ∧ (Slot.of component a.name).Holds out v

/-- What is run in order gives the values one by one. -/
theorem forall₂_of_run {α : Type} {f : α → Lower Script.Expr} {xs : List α} {s t : Scope} {vs : List Script.Expr}
    (h : RunInOrder (xs.map f) s vs t) : List.Forall₂ (fun x v => ∃ s t, f x s = (.ok v, t)) xs vs := by
  induction xs generalizing s vs with
  | nil =>
    cases h
    exact .nil
  | cons x xs ih =>
    cases h with
    | cons hx hxs => exact .cons ⟨_, _, hx⟩ (ih hxs)

namespace Argument

variable {args : List Argument} {a : Argument}

@[simp] theorem isNamed_iff {name : String} : a.isNamed name = true ↔ a.name = some name := by simp [isNamed]

theorem name_of_find? {name : String} (h : args.find? (·.isNamed name) = some a) : a.name = some name := by
  simpa using List.find?_some h

/-- Where names are distinct, the argument of a name is found. -/
theorem find?_of_mem (hnodup : (args.map Argument.name).Nodup) (ha : a ∈ args) {name : String}
    (hname : a.name = some name) : args.find? (·.isNamed name) = some a := by
  cases hfind : args.find? (·.isNamed name) with
  | none => exact absurd (isNamed_iff.2 hname) (List.find?_eq_none.1 hfind a ha)
  | some b =>
    have hsame : b.name = a.name := (name_of_find? hfind).trans hname.symm
    rw [List.inj_on_of_nodup_map hnodup (List.mem_of_find?_eq_some hfind) ha hsame]

theorem findAny?_pair (first second : String) :
    findAny? args [first, second] = (args.find? (·.isNamed first)).or (args.find? (·.isNamed second)) := by
  unfold findAny?
  rw [List.findSome?_cons]
  cases args.find? (·.isNamed first) with
  | some b => rfl
  | none => simp

/-- Of two names the first is preferred. -/
theorem of_findAny?_pair {first second : String} (h : findAny? args [first, second] = some a) :
    a.name = some first ∨ a.name = some second ∧ args.any (·.isNamed first) = false := by
  rw [findAny?_pair, Option.or_eq_some_iff] at h
  rcases h with h | ⟨hnone, h⟩
  · exact .inl (name_of_find? h)
  · refine .inr ⟨name_of_find? h, ?_⟩
    simpa using List.find?_eq_none.1 hnone

theorem findAny?_of_mem (hnodup : (args.map Argument.name).Nodup) (ha : a ∈ args) {first second : String}
    (hname : a.name = some first ∨ a.name = some second ∧ args.any (·.isNamed first) = false) :
    findAny? args [first, second] = some a := by
  rw [findAny?_pair]
  rcases hname with hname | ⟨hname, hnone⟩
  · rw [find?_of_mem hnodup ha hname, Option.some_or]
  · have hfirst : args.find? (·.isNamed first) = none := by
      rw [List.find?_eq_none]
      simpa using hnone
    rw [hfirst, Option.none_or, find?_of_mem hnodup ha hname]

theorem exists_field {fs : List (String × Script.Expr)} {as : List Argument}
    (hnames : as.map Argument.name = fs.map fun f => some f.1)
    (hvs : List.Forall₂ (fun a v => Lowers a.value v) as (fs.map Prod.snd)) (ha : a ∈ as) :
    ∃ n v, a.name = some n ∧ (n, v) ∈ fs ∧ Lowers a.value v := by
  induction as generalizing fs with
  | nil => cases ha
  | cons b as ih =>
    rcases fs with _ | ⟨⟨n, v⟩, fs⟩
    · cases hnames
    · injection hnames with hname hnames
      cases hvs with
      | cons hv hvs =>
        rcases List.mem_cons.1 ha with rfl | ha
        · exact ⟨n, v, hname, by simp, hv⟩
        · obtain ⟨n', v', hn', hmem, hv'⟩ := ih hnames hvs ha
          exact ⟨n', v', hn', List.mem_cons_of_mem _ hmem, hv'⟩

end Argument

/-- The arguments of a tool that are not passed over are those that it looks up. -/
theorem isShadowed_tool {args : List Argument} {name : Option String} :
    isShadowed "Tool" args name = false ↔
      (name = some "desc" → args.any (·.isNamed "description") = false) ∧
        (name = some "func" → args.any (·.isNamed "handler") = false) := by
  simp [isShadowed, Component.aliases]

theorem isShadowed_builtin {args : List Argument} {name : Option String} :
    isShadowed "Builtin" args name = false ↔ (name = some "type" → args.any (·.isNamed "kind") = false) := by
  simp [isShadowed, Component.aliases]

theorem isShadowed_of_ne {component : String} (htool : component ≠ "Tool") (hbuiltin : component ≠ "Builtin")
    (args : List Argument) (name : Option String) : isShadowed component args name = false := by
  simp [isShadowed, Component.aliases, htool.symm, hbuiltin.symm]

theorem isKind_of_ne {component : String} (h : component ≠ "Builtin") (name : Option String) :
    isKind component name = false := by
  simp [isKind, h]

/-- Of the arguments of a builtin, those that give no kind are its fields. -/
theorem isKind_builtin (a : Argument) : isKind "Builtin" a.name = !a.isField ["kind", "type"] := by
  obtain ⟨_ | n, e⟩ := a
  · rfl
  · simp [isKind, Argument.isField, Bool.beq_eq_decide_eq]

section Arranged

variable {args used : List Argument} {component : String} {vs out : List Script.Expr} {a : Argument}

theorem Configured.mem_used {v : Script.Expr} (hshape : WellFormed.Shape args) (h : Configured args used vs v)
    (ha : a ∈ args) : a ∈ used := by
  cases h with
  | sole _ => exact ha
  | fields hsole _ =>
    rcases hshape with rfl | ⟨e, rfl⟩ | ⟨hnamed, -⟩
    · cases ha
    · exact absurd rfl (hsole e)
    · obtain ⟨n, hn⟩ := Option.ne_none_iff_exists'.1 (hnamed a ha)
      exact List.mem_filter.2 ⟨ha, by simp [Argument.isField, hn]⟩

/-- The arguments have names, and no two the same, where one of them is found by a name. -/
theorem nodup_of_findAny? (hshape : WellFormed.Shape args) {names : List String}
    (h : Argument.findAny? args names = some a) : (∀ b ∈ args, b.name ≠ none) ∧ (args.map Argument.name).Nodup := by
  rcases hshape with rfl | ⟨e, rfl⟩ | hnamed
  · cases Argument.mem_of_findAny? h
  · obtain ⟨n, -, hn⟩ := List.exists_of_findSome?_eq_some h
    have hnone : (Argument.mk none e).name = some n := by
      rw [← List.mem_singleton.1 (List.mem_of_find?_eq_some hn)]
      exact Argument.name_of_find? hn
    cases hnone
  · exact hnamed

/-- Each argument of a tool that is not passed over is one of those that it looks for, which have places of their own. -/
theorem tool_argument (hshape : WellFormed.Shape args) {name handler : Argument}
    (hnames : ∀ a ∈ args, ∀ n, a.name = some n → n ∈ toolNames) (hname : args.find? (·.isNamed "name") = some name)
    (hhandler : Argument.findAny? args ["handler", "func"] = some handler) (ha : a ∈ args)
    (hshadowed : isShadowed "Tool" args a.name = false) :
    name = a ∧ Slot.of "Tool" a.name = .argument 0 ∨
      Argument.findAny? args ["description", "desc"] = some a ∧ Slot.of "Tool" a.name = .argument 1 ∨
      handler = a ∧ Slot.of "Tool" a.name = .argument 2 ∨
      args.find? (·.isNamed "schema") = some a ∧ Slot.of "Tool" a.name = .argument 3 := by
  obtain ⟨hnamed, hnodup⟩ := nodup_of_findAny? hshape hhandler
  obtain ⟨n, hn⟩ := Option.ne_none_iff_exists'.1 (hnamed a ha)
  obtain ⟨hdesc, hfunc⟩ := isShadowed_tool.1 hshadowed
  have hmem := hnames a ha n hn
  simp only [toolNames, List.mem_cons, List.not_mem_nil, or_false] at hmem
  rcases hmem with rfl | rfl | rfl | rfl | rfl | rfl
  · rw [Argument.find?_of_mem hnodup ha hn] at hname
    exact .inl ⟨(Option.some.inj hname).symm, by rw [hn]; rfl⟩
  · exact .inr (.inl ⟨Argument.findAny?_of_mem hnodup ha (.inl hn), by rw [hn]; rfl⟩)
  · exact .inr (.inl ⟨Argument.findAny?_of_mem hnodup ha (.inr ⟨hn, hdesc hn⟩), by rw [hn]; rfl⟩)
  · rw [Argument.findAny?_of_mem hnodup ha (.inl hn)] at hhandler
    exact .inr (.inr (.inl ⟨(Option.some.inj hhandler).symm, by rw [hn]; rfl⟩))
  · rw [Argument.findAny?_of_mem hnodup ha (.inr ⟨hn, hfunc hn⟩)] at hhandler
    exact .inr (.inr (.inl ⟨(Option.some.inj hhandler).symm, by rw [hn]; rfl⟩))
  · exact .inr (.inr (.inr ⟨Argument.find?_of_mem hnodup ha hn, by rw [hn]; rfl⟩))

/-- Each argument that is not passed over is lowered, unless it is a kind or a literal. -/
theorem Arranged.mem_used (hshape : WellFormed.Shape args) (h : Arranged args component used vs out) (ha : a ∈ args)
    (hshadowed : isShadowed component args a.name = false) (hkind : isKind component a.name = false) :
    a ∈ used ∨ (∃ text, a.value = .string text) ∨ ∃ name, a.value = .templateVar name := by
  cases h with
  | empty hargs =>
    rw [hargs] at ha
    cases ha
  | model h => exact .inl (h.mem_used hshape ha)
  | tool hnames hname hhandler hdescription hschema _ _ =>
    left
    simp only [List.mem_cons, List.mem_append, Option.mem_toList]
    subst hdescription hschema
    rcases tool_argument hshape hnames hname hhandler ha hshadowed with ⟨h, -⟩ | ⟨h, -⟩ | ⟨h, -⟩ | ⟨h, -⟩
    · exact .inl h.symm
    · exact .inr (.inl h)
    · exact .inr (.inr (.inl h.symm))
    · exact .inr (.inr (.inr h))
  | text honly htext =>
    rw [honly.eq_singleton hshape, List.mem_singleton] at ha
    exact .inr (.inl ⟨_, ha ▸ htext⟩)
  | placeholder honly hname =>
    rw [honly.eq_singleton hshape, List.mem_singleton] at ha
    exact .inr (.inr ⟨_, ha ▸ hname⟩)
  | prompt honly _ => exact .inl (honly.eq_singleton hshape ▸ ha)
  | builtin _ _ _ =>
    rw [isKind_builtin, Bool.not_eq_false'] at hkind
    exact .inl (List.mem_filter.2 ⟨ha, hkind⟩)
  | router h => exact .inl (h.mem_used hshape ha)
  | endpoint _ hargs =>
    rw [hargs] at ha
    cases ha

/-- No argument that is lowered is passed over, or a kind. -/
theorem Arranged.not_shadowed (h : Arranged args component used vs out) (ha : a ∈ used) :
    isShadowed component args a.name = false ∧ isKind component a.name = false := by
  cases h with
  | tool _ hname hhandler hdescription hschema _ _ =>
    refine ⟨isShadowed_tool.2 ?_, isKind_of_ne (by decide) _⟩
    simp only [List.mem_cons, List.mem_append, Option.mem_toList] at ha
    rcases ha with rfl | ha | rfl | ha
    · simp [Argument.name_of_find? hname]
    · rcases Argument.of_findAny?_pair (hdescription.trans ha) with hn | ⟨hn, hnone⟩
      · simp [hn]
      · simpa [hn] using hnone
    · rcases Argument.of_findAny?_pair hhandler with hn | ⟨hn, hnone⟩
      · simp [hn]
      · simpa [hn] using hnone
    · simp [Argument.name_of_find? (hschema.trans ha)]
  | builtin _ _ _ =>
    obtain ⟨-, hfield⟩ := List.mem_filter.1 ha
    refine ⟨isShadowed_builtin.2 fun htype => ?_, by rw [isKind_builtin, hfield, Bool.not_true]⟩
    simp [Argument.isField, htype] at hfield
  | endpoint hendpoint _ => cases ha
  | _ => exact ⟨isShadowed_of_ne (by decide) (by decide) _ _, isKind_of_ne (by decide) _⟩

/-- A value that is lowered stands for its argument, where that is neither a kind nor a template. -/
theorem StandsFor.of_lowers {v : Script.Expr} (hprompt : component ≠ "Prompt") (hbuiltin : component ≠ "Builtin")
    (h : Lowers a.value v) : StandsFor component a v :=
  .value (isKind_of_ne hbuiltin _) (fun hcomponent => absurd hcomponent hprompt) h

theorem Configured.holds {v : Script.Expr} (hshape : WellFormed.Shape args) (h : Configured args used vs v)
    (hvs : List.Forall₂ (fun a v => Lowers a.value v) used vs) (rest : List Script.Expr) (ha : a ∈ args) :
    ∃ w, Lowers a.value w ∧ (Slot.config a.name).Holds (v :: rest) w := by
  have hused := h.mem_used hshape ha
  cases h with
  | sole hargs =>
    subst hargs
    cases hvs with
    | cons hv _ =>
      rw [List.mem_singleton.1 ha]
      exact ⟨v, hv, rfl⟩
  | fields _ hnames =>
    obtain ⟨n, w, hn, hmem, hw⟩ := Argument.exists_field hnames hvs hused
    rw [hn]
    exact ⟨w, hw, _, rfl, hmem⟩

theorem Configured.filled {v : Script.Expr} (hshape : WellFormed.Shape args) (h : Configured args used vs v)
    (hvs : List.Forall₂ (fun a v => Lowers a.value v) used vs) (rest : List Script.Expr)
    (hcomponent : component = "Model" ∨ component = "Router") : Filled component args (v :: rest) := by
  intro a ha _
  obtain ⟨w, hw, hholds⟩ := h.holds hshape hvs rest ha
  refine ⟨w, .of_lowers ?_ ?_ hw, ?_⟩
  · rcases hcomponent with rfl | rfl <;> decide
  · rcases hcomponent with rfl | rfl <;> decide
  · rcases hcomponent with rfl | rfl <;> exact hholds

/-- The values of the arguments of a tool, by what they are for. -/
theorem forall₂_tool {name handler : Argument} {description schema : Option Argument} {n h : Script.Expr}
    {d c : Option Script.Expr} (hd : d.isSome = description.isSome) (hc : c.isSome = schema.isSome)
    (hvs : List.Forall₂ (fun a v => Lowers a.value v) (name :: (description.toList ++ handler :: schema.toList))
      (n :: (d.toList ++ h :: c.toList))) :
    Lowers name.value n ∧ (∀ a ∈ description, ∃ v ∈ d, Lowers a.value v) ∧ Lowers handler.value h ∧
      ∀ a ∈ schema, ∃ v ∈ c, Lowers a.value v := by
  have hoption : ∀ {o : Option Argument} {v : Option Script.Expr}, v.isSome = o.isSome →
      List.Forall₂ (fun a v => Lowers a.value v) o.toList v.toList → ∀ a ∈ o, ∃ w ∈ v, Lowers a.value w := by
    intro o v hsome hov a ha
    cases ha
    obtain ⟨w, rfl⟩ := Option.isSome_iff_exists.1 hsome
    cases hov with
    | cons hw _ => exact ⟨w, rfl, hw⟩
  cases hvs with
  | cons hn hvs =>
    obtain ⟨hdescription, hrest⟩ : List.Forall₂ (fun a v => Lowers a.value v) description.toList d.toList ∧
        List.Forall₂ (fun a v => Lowers a.value v) (handler :: schema.toList) (h :: c.toList) := by
      rcases description with _ | b <;> rcases d with _ | v
      · exact ⟨.nil, hvs⟩
      · cases hd
      · cases hd
      · cases hvs with
        | cons hv hvs => exact ⟨.cons hv .nil, hvs⟩
    cases hrest with
    | cons hh hschema => exact ⟨hn, hoption hd hdescription, hh, hoption hc hschema⟩

theorem itemNodes_subset {es fs : List Script.Expr} (h : es ⊆ fs) : itemNodes es ⊆ itemNodes fs := by
  intro w hw
  rw [itemNodes_eq_flatMap, List.mem_flatMap] at hw ⊢
  obtain ⟨e, he, hw⟩ := hw
  exact ⟨e, h he, hw⟩

/-- All that arguments are lowered to is in the instance. -/
theorem Configured.nodes_subset {v : Script.Expr} (h : Configured args used vs v) :
    itemNodes vs ⊆ itemNodes [v] := by
  cases h with
  | sole _ => exact List.Subset.refl _
  | @fields fs _ _ =>
    rw [itemNodes, Script.Expr.nodes, fieldNodes_eq]
    intro w hw
    simp [hw]

theorem Arranged.nodes_subset (h : Arranged args component used vs out) : itemNodes vs ⊆ itemNodes out := by
  cases h with
  | model h => exact h.nodes_subset
  | @tool name handler description schema n h d c _ _ _ _ _ _ _ =>
    apply itemNodes_subset
    intro v hv
    simp only [List.mem_cons, List.mem_append, Option.mem_toList] at hv
    rcases hv with rfl | rfl | rfl | rfl <;> simp
  | prompt _ _ => exact List.Subset.refl _
  | @builtin a kind fs _ _ _ =>
    intro w hw
    cases fs with
    | nil => cases hw
    | cons f fs =>
      rw [← fieldNodes_eq] at hw
      simp [itemNodes, Script.Expr.nodes, hw]
  | router h =>
    intro w hw
    rw [itemNodes]
    exact List.mem_append_left _ (by simpa [itemNodes] using h.nodes_subset hw)
  | _ => exact List.nil_subset _

theorem filled_tool (hshape : WellFormed.Shape args) {name handler : Argument} {n h : Script.Expr}
    {d c : Option Script.Expr} (hnames : ∀ a ∈ args, ∀ n, a.name = some n → n ∈ toolNames)
    (hname : args.find? (·.isNamed "name") = some name)
    (hhandler : Argument.findAny? args ["handler", "func"] = some handler)
    (hd : d.isSome = (Argument.findAny? args ["description", "desc"]).isSome)
    (hc : c.isSome = (args.find? (·.isNamed "schema")).isSome)
    (hvs : List.Forall₂ (fun a v => Lowers a.value v)
      (name :: ((Argument.findAny? args ["description", "desc"]).toList ++
        handler :: (args.find? (·.isNamed "schema")).toList)) (n :: (d.toList ++ h :: c.toList))) :
    Filled "Tool" args [n, d.getD (.str ""), h, c.getD (Component.schemaOf [])] := by
  intro a ha hshadowed
  obtain ⟨hn, hdescription, hh, hschema⟩ := forall₂_tool hd hc hvs
  have hstands : ∀ {v}, Lowers a.value v → StandsFor "Tool" a v := .of_lowers (by decide) (by decide)
  rcases tool_argument hshape hnames hname hhandler ha hshadowed with
    ⟨rfl, hplace⟩ | ⟨hfound, hplace⟩ | ⟨rfl, hplace⟩ | ⟨hfound, hplace⟩
  · exact ⟨n, hstands hn, by rw [hplace]; rfl⟩
  · obtain ⟨v, rfl, hv⟩ := hdescription a hfound
    exact ⟨v, hstands hv, by rw [hplace]; rfl⟩
  · exact ⟨h, hstands hh, by rw [hplace]; rfl⟩
  · obtain ⟨v, rfl, hv⟩ := hschema a hfound
    exact ⟨v, hstands hv, by rw [hplace]; rfl⟩

/-- The argument that gives the kind of a builtin is the one that is found for it. -/
theorem eq_of_isKind (hshape : WellFormed.Shape args) {b : Argument}
    (hfound : Argument.findAny? args ["kind", "type"] = some b ∨ args = [b] ∧ b.name = none) (ha : a ∈ args)
    (hshadowed : isShadowed "Builtin" args a.name = false) (hkind : isKind "Builtin" a.name = true) : a = b := by
  rcases hfound with hfound | ⟨hargs, -⟩
  · obtain ⟨hnamed, hnodup⟩ := nodup_of_findAny? hshape hfound
    have hname : a.name = some "kind" ∨ a.name = some "type" ∧ args.any (·.isNamed "kind") = false := by
      have hnone := hnamed a ha
      simp only [isKind, beq_self_eq_true, Bool.true_and, Bool.or_eq_true, beq_iff_eq, hnone, false_or] at hkind
      exact hkind.imp_right fun htype => ⟨htype, isShadowed_builtin.1 hshadowed htype⟩
    rw [Argument.findAny?_of_mem hnodup ha hname] at hfound
    exact Option.some.inj hfound
  · rwa [hargs, List.mem_singleton] at ha

theorem filled_builtin (hshape : WellFormed.Shape args) {b : Argument} {kind : String}
    {fs : List (String × Script.Expr)}
    (hfound : Argument.findAny? args ["kind", "type"] = some b ∨ args = [b] ∧ b.name = none)
    (hvalue : b.value = .string kind ∨ b.value = .identifier kind)
    (hnames : (args.filter (·.isField ["kind", "type"])).map Argument.name = fs.map fun f => some f.1)
    (hvs : List.Forall₂ (fun a v => Lowers a.value v) (args.filter (·.isField ["kind", "type"])) (fs.map Prod.snd)) :
    Filled "Builtin" args (.str kind :: if fs.isEmpty then [] else [.object fs]) := by
  intro a ha hshadowed
  cases hkind : isKind "Builtin" a.name with
  | true =>
    obtain rfl := eq_of_isKind hshape hfound ha hshadowed hkind
    have hplace : Slot.of "Builtin" a.name = .argument 0 := by simp [Slot.of, hkind]
    exact ⟨.str kind, .kind hkind hvalue, by rw [hplace]; rfl⟩
  | false =>
    have hfield : a.isField ["kind", "type"] = true := by rwa [isKind_builtin, Bool.not_eq_false'] at hkind
    have hused : a ∈ args.filter (·.isField ["kind", "type"]) := List.mem_filter.2 ⟨ha, hfield⟩
    obtain ⟨n, v, hn, hmem, hv⟩ := Argument.exists_field hnames hvs hused
    have hplace : Slot.of "Builtin" a.name = .field 1 n := by
      rw [hn] at hkind ⊢
      simp [Slot.of, hkind]
    refine ⟨v, .value hkind (by simp) hv, ?_⟩
    rw [hplace]
    refine ⟨fs, ?_, hmem⟩
    rw [if_neg (by simpa using List.ne_nil_of_mem hmem)]
    rfl

theorem Arranged.filled (hshape : WellFormed.Shape args) (h : Arranged args component used vs out)
    (hvs : List.Forall₂ (fun a v => Lowers a.value v) used vs) : Filled component args out := by
  cases h with
  | empty hargs => simp [Filled, hargs]
  | model h => exact h.filled hshape hvs [] (.inl rfl)
  | tool hnames hname hhandler hdescription hschema hd hc =>
    subst hdescription hschema
    exact filled_tool hshape hnames hname hhandler hd hc hvs
  | text honly htext =>
    intro a ha _
    rw [honly.eq_singleton hshape, List.mem_singleton] at ha
    subst ha
    exact ⟨_, .template rfl htext, rfl⟩
  | @placeholder b name honly hname =>
    intro a ha _
    rw [honly.eq_singleton hshape, List.mem_singleton] at ha
    subst ha
    refine ⟨_, .value (isKind_of_ne (by decide) _) (fun _ text htext => ?_) ?_, rfl⟩
    · rw [hname] at htext
      cases htext
    · rw [hname]
      exact ⟨Scope.initial [], _, rfl⟩
  | prompt honly hstring =>
    intro a ha _
    rw [honly.eq_singleton hshape, List.mem_singleton] at ha
    subst ha
    cases hvs with
    | cons hv _ => exact ⟨_, .value (isKind_of_ne (by decide) _) (fun _ => hstring) hv, rfl⟩
  | builtin hfound hvalue hnames => exact filled_builtin hshape hfound hvalue hnames hvs
  | router h => exact h.filled hshape hvs _ (.inr rfl)
  | endpoint _ hargs => simp [Filled, hargs]

end Arranged

section Modifiers

/-- What a modifier attaches for its argument: each tool of a list, or one structure. -/
inductive Attached (modifier : String) (a : Argument) : List Component.Attachment → Prop
  | tools {names : List String} : modifier = "bind" → a.value = .list (names.map .identifier) →
      Attached modifier a (names.map fun n => ("bind_tool", .ident n))
  | schema {v} : modifier = "output" → Lowers a.value v → Attached modifier a [("bind_structure", v)]

variable {m : Call} {s t : Scope} {as : List Component.Attachment}

theorem lowers_of_reference {name : String} {checked : Bool} {v : Script.Expr}
    (h : Lower.reference name checked s = (.ok v, t)) : Lowers (.identifier name) v := by
  rw [Lowers, lowerValue_identifier]
  cases hendpoint : Lower.isEndpoint name with
  | true =>
    rw [Lower.reference_endpoint hendpoint] at h
    cases h
    exact ⟨s, _, Lower.reference_endpoint hendpoint false s⟩
  | false =>
    rw [Lower.reference_name hendpoint] at h
    cases h
    exact ⟨s, _, Lower.reference_name hendpoint false s⟩

/-- A modifier that can be attached has a single argument. -/
theorem exists_argument_of_attachments (hshape : WellFormed.Shape m.args) (h : m.attachments s = (.ok as, t)) :
    ∃ a, m.args = [a] := by
  obtain ⟨name, args, router⟩ := m
  have hsingle : ∀ {call what : String} {u : Scope},
      Operand.rejectUnknown call (operands args) [what] s = (.ok (), u) →
      (Operand.find? (operands args) what <|> Operand.sole? (operands args)) ≠ none → ∃ a, args = [a] := by
    intro call what u hreject hfind
    obtain ⟨hunknown, -⟩ := Operand.rejectUnknown_eq_ok hreject
    obtain ⟨o, ho⟩ := Option.ne_none_iff_exists'.1 hfind
    obtain ⟨a, -, honly⟩ := Operand.isOnly_of_found hunknown ho
    exact ⟨a, honly.eq_singleton hshape⟩
  rw [Call.attachments] at h
  unfold Component.modifier at h
  split at h
  · obtain ⟨_, u, hreject, hrest⟩ := Lower.bind_eq_ok.1 h
    refine hsingle hreject fun hnone => ?_
    rw [hnone] at hrest
    exact absurd hrest Lower.fail_ne_ok
  split at h
  · obtain ⟨_, u, hreject, hrest⟩ := Lower.bind_eq_ok.1 h
    refine hsingle hreject fun hnone => ?_
    rw [hnone] at hrest
    exact absurd hrest Lower.fail_ne_ok
  · exact absurd h Lower.fail_ne_ok

theorem attached_of_attachments (hshape : WellFormed.Shape m.args) (h : m.attachments s = (.ok as, t)) :
    ∀ a ∈ m.args, Attached m.name a as := by
  obtain ⟨a, hargs⟩ := exists_argument_of_attachments hshape h
  have hvalue : ∀ {name : String} {e : Expr}, m.argument? name = some e → a.value = e := by
    intro name e hargument
    obtain ⟨b, hb, hvalue⟩ := Call.exists_of_argument? hargument
    rw [hargs, List.mem_singleton] at hb
    rw [← hb, hvalue]
  rw [hargs]
  intro b hb
  rw [List.mem_singleton.1 hb]
  have hattaches := attachments_attaches m s as t h
  cases hattaches with
  | tools hname hargument => exact .tools hname (hvalue hargument)
  | named hname hargument hrun =>
    refine .schema hname ?_
    rw [hvalue hargument]
    exact lowers_of_reference hrun
  | given hname hargument hrun =>
    refine .schema hname ?_
    rw [hvalue hargument]
    exact ⟨s, t, hrun⟩

end Modifiers

section Unshadowed

def Component.unshadowed (component : String) (args : List Argument) : List Argument :=
  args.filter fun a => !isShadowed component args a.name

open Component (unshadowed)

variable {args : List Argument} {keep : Argument → Bool}

theorem find?_filter_of_keep {name : String} (h : ∀ a ∈ args, a.name = some name → keep a = true) :
    (args.filter keep).find? (·.isNamed name) = args.find? (·.isNamed name) := by
  induction args with
  | nil => rfl
  | cons a args ih =>
    obtain ⟨ha, hargs⟩ := List.forall_mem_cons.1 h
    cases hkeep : keep a with
    | true => rw [List.filter_cons_of_pos hkeep, List.find?_cons, List.find?_cons, ih hargs]
    | false =>
      have hname : a.isNamed name = false := by
        rw [← Bool.not_eq_true, Argument.isNamed_iff]
        intro hname
        rw [ha hname] at hkeep
        cases hkeep
      rw [List.filter_cons_of_neg (by simp [hkeep]), List.find?_cons, hname, ih hargs]

/-- Of two names for an argument, the one that is not passed over is found. -/
theorem findAny?_filter_of_keep {first second : String} (hfirst : ∀ a ∈ args, a.name = some first → keep a = true)
    (hsecond : args.any (·.isNamed first) = false → ∀ a ∈ args, a.name = some second → keep a = true) :
    Argument.findAny? (args.filter keep) [first, second] = Argument.findAny? args [first, second] := by
  rw [Argument.findAny?_pair, Argument.findAny?_pair, find?_filter_of_keep hfirst]
  cases hfind : args.find? (·.isNamed first) with
  | some a => rfl
  | none =>
    have hnone : args.any (·.isNamed first) = false := by simpa using hfind
    rw [find?_filter_of_keep (hsecond hnone)]

theorem unknown?_operands (args : List Argument) (allowed : List String) :
    Operand.unknown? (operands args) allowed = (args.filterMap Argument.name).find? fun n => !allowed.contains n := by
  rw [operands_eq_map, Operand.unknown?, List.filterMap_map]
  rfl

theorem unknown?_filter {allowed : List String} (h : ∀ a ∈ args, keep a = false → ∀ n, a.name = some n → n ∈ allowed) :
    Operand.unknown? (operands (args.filter keep)) allowed = Operand.unknown? (operands args) allowed := by
  rw [unknown?_operands, unknown?_operands]
  induction args with
  | nil => rfl
  | cons a args ih =>
    obtain ⟨ha, hargs⟩ := List.forall_mem_cons.1 h
    have ih := ih hargs
    cases hkeep : keep a with
    | true =>
      rw [List.filter_cons_of_pos hkeep, List.filterMap_cons, List.filterMap_cons]
      cases a.name with
      | none => exact ih
      | some n =>
        dsimp only
        rw [List.find?_cons, List.find?_cons, ih]
    | false =>
      rw [List.filter_cons_of_neg (by simp [hkeep]), List.filterMap_cons, ih]
      cases hname : a.name with
      | none => rfl
      | some n =>
        have hallowed : (!allowed.contains n) = false := by simpa using ha hkeep n hname
        dsimp only
        rw [List.find?_cons, hallowed]

theorem fields_filter {skip : List String} (h : ∀ a ∈ args, keep a = false → a.isField skip = false) :
    Operand.fields skip (operands (args.filter keep)) = Operand.fields skip (operands args) := by
  induction args with
  | nil => rfl
  | cons a args ih =>
    obtain ⟨ha, hargs⟩ := List.forall_mem_cons.1 h
    have ih := ih hargs
    obtain ⟨name, e⟩ := a
    cases hkeep : keep ⟨name, e⟩ with
    | true => rw [List.filter_cons_of_pos hkeep, operands, operands, Operand.fields, Operand.fields, ih]
    | false =>
      rw [List.filter_cons_of_neg (by simp [hkeep]), ih, operands, Operand.fields]
      have hfield := ha hkeep
      cases name with
      | none => rfl
      | some n =>
        have hskip : skip.contains n = true := by simpa [Argument.isField] using hfield
        dsimp only
        rw [if_pos hskip]

theorem tool_unshadowed (args : List Argument) :
    Component.tool (operands (unshadowed "Tool" args)) = Component.tool (operands args) := by
  have hkeep : ∀ a : Argument, (!isShadowed "Tool" args a.name) = true ↔
      (a.name = some "desc" → args.any (·.isNamed "description") = false) ∧
        (a.name = some "func" → args.any (·.isNamed "handler") = false) := by
    intro a
    rw [Bool.not_eq_true', isShadowed_tool]
  have hname : (unshadowed "Tool" args).find? (·.isNamed "name") = _ :=
    find?_filter_of_keep fun a _ hname => (hkeep a).2 (by simp [hname])
  have hschema : (unshadowed "Tool" args).find? (·.isNamed "schema") = _ :=
    find?_filter_of_keep fun a _ hname => (hkeep a).2 (by simp [hname])
  have hdescription : Argument.findAny? (unshadowed "Tool" args) ["description", "desc"] = _ :=
    findAny?_filter_of_keep (fun a _ hname => (hkeep a).2 (by simp [hname]))
      fun hnone a _ hname => (hkeep a).2 (by simpa [hname] using hnone)
  have hhandler : Argument.findAny? (unshadowed "Tool" args) ["handler", "func"] = _ :=
    findAny?_filter_of_keep (fun a _ hname => (hkeep a).2 (by simp [hname]))
      fun hnone a _ hname => (hkeep a).2 (by simpa [hname] using hnone)
  have hunknown : Operand.unknown? (operands (unshadowed "Tool" args)) toolNames = _ := unknown?_filter (by
    intro a _ hshadowed n hn
    rw [Bool.not_eq_false'] at hshadowed
    simp only [isShadowed, Component.aliases, hn, List.any_cons, Bool.or_eq_true, Bool.and_eq_true, beq_iff_eq,
      Option.some.injEq] at hshadowed
    rcases hshadowed with ⟨⟨-, rfl⟩, -⟩ | ⟨⟨-, rfl⟩, -⟩ | ⟨⟨h, -⟩, -⟩ | h
    · decide
    · decide
    · exact absurd h (by decide)
    · cases h)
  unfold toolNames at hunknown
  unfold Component.tool Operand.rejectUnknown
  simp only [hunknown, Operand.find?_operands, Operand.findAny?_operands, hname, hschema, hdescription, hhandler]

theorem builtin_unshadowed (args : List Argument) :
    Component.builtin (operands (unshadowed "Builtin" args)) = Component.builtin (operands args) := by
  have hkeep : ∀ a : Argument, (!isShadowed "Builtin" args a.name) = true ↔
      (a.name = some "type" → args.any (·.isNamed "kind") = false) := by
    intro a
    rw [Bool.not_eq_true', isShadowed_builtin]
  cases hkind : args.any (·.isNamed "kind") with
  | false =>
    -- without a preferred name none is passed over
    have hall : unshadowed "Builtin" args = args := List.filter_eq_self.2 fun a _ => (hkeep a).2 fun _ => hkind
    rw [hall]
  | true =>
    have hfind : (unshadowed "Builtin" args).find? (·.isNamed "kind") = args.find? (·.isNamed "kind") :=
      find?_filter_of_keep fun a _ hname => (hkeep a).2 (by simp [hname])
    have hfields : Operand.fields ["kind", "type"] (operands (unshadowed "Builtin" args)) = _ := fields_filter (by
      intro a _ hshadowed
      have htype : a.name = some "type" := by
        by_contra hne
        rw [(hkeep a).2 fun htype => absurd htype hne] at hshadowed
        cases hshadowed
      simp [Argument.isField, htype])
    obtain ⟨a, ha⟩ := Option.isSome_iff_exists.1 (List.find?_isSome.2 (List.any_eq_true.1 hkind))
    unfold Component.builtin
    simp only [hfields, Operand.findAny?_operands, Argument.findAny?_pair, hfind, ha, Option.some_or, Option.map_some]
    rfl

/-- Without the arguments that are passed over a call is lowered alike. -/
theorem call_unshadowed (component : String) (args : List Argument) (cases : List (Lower Script.Expr × Component.Steps))
    (fallback : Option Component.Steps) :
    Component.call component (operands (unshadowed component args)) cases fallback =
      Component.call component (operands args) cases fallback := by
  by_cases htool : component = "Tool"
  · subst htool
    exact tool_unshadowed args
  by_cases hbuiltin : component = "Builtin"
  · subst hbuiltin
    exact builtin_unshadowed args
  have hall : unshadowed component args = args :=
    List.filter_eq_self.2 fun a _ => by rw [isShadowed_of_ne htool hbuiltin, Bool.not_false]
  rw [hall]

theorem lower_unshadowed (c : Call) : (Call.mk c.name (unshadowed c.name c.args) c.router).lower = c.lower := by
  rw [Call.lower_eq, Call.lower_eq]
  exact call_unshadowed c.name c.args _ _

end Unshadowed

end ChainCompiler
