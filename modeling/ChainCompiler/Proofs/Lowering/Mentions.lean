import ChainCompiler.Proofs.Lowering.Arguments

/-! The names that lowered code mentions, read off the program. A name in an expression becomes an identifier of the code
wherever it stands, except as the kind of a builtin, which becomes a string, and below an argument that is passed
over. -/

namespace ChainCompiler

open Component (isShadowed isKind)
open Script (itemNodes itemNodes_append mem_itemNodes_cons)

namespace Script

/-- The name is an identifier in one of the expressions, at some depth. -/
def Mentions (n : String) (es : List Expr) : Prop := .ident n ∈ itemNodes es

variable {n : String}

@[simp] theorem not_mentions_nil : ¬Mentions n [] := by simp [Mentions, itemNodes]

@[simp] theorem mentions_append {es fs : List Expr} : Mentions n (es ++ fs) ↔ Mentions n es ∨ Mentions n fs := by
  simp only [Mentions, itemNodes_append, List.mem_append]

theorem mentions_cons {e : Expr} {es : List Expr} : Mentions n (e :: es) ↔ Mentions n [e] ∨ Mentions n es := by
  rw [← mentions_append, List.singleton_append]

@[simp] theorem mentions_cons_cons {e f : Expr} {es : List Expr} :
    Mentions n (e :: f :: es) ↔ Mentions n [e] ∨ Mentions n (f :: es) := mentions_cons

/-- An identifier at the head of an expression, or below it. -/
theorem mentions_singleton {e : Expr} : Mentions n [e] ↔ e = .ident n ∨ Mentions n e.parts := by
  unfold Mentions
  rw [mem_itemNodes_cons, List.append_nil, eq_comm]

@[simp] theorem mentions_ident {name : String} : Mentions n [.ident name] ↔ n = name := by
  simp [mentions_singleton, Expr.parts, eq_comm]

@[simp] theorem not_mentions_str {text : String} : ¬Mentions n [.str text] := by
  simp [mentions_singleton, Expr.parts]

@[simp] theorem not_mentions_null : ¬Mentions n [.null] := by simp [mentions_singleton, Expr.parts]

@[simp] theorem mentions_array {items : List Expr} : Mentions n [.array items] ↔ Mentions n items := by
  simp [mentions_singleton, Expr.parts]

@[simp] theorem mentions_object {fields : List (String × Expr)} :
    Mentions n [.object fields] ↔ Mentions n (fields.map Prod.snd) := by
  simp [mentions_singleton, Expr.parts]

@[simp] theorem mentions_new {c : String} {args : List Expr} : Mentions n [.new c args] ↔ Mentions n args := by
  simp [mentions_singleton, Expr.parts]

@[simp] theorem mentions_method {e : Expr} {name : String} {args : List Expr} :
    Mentions n [e.method name args] ↔ Mentions n [e] ∨ Mentions n args := by
  rw [Expr.method, mentions_singleton, Expr.parts, mentions_cons]
  simp [mentions_singleton, Expr.parts]

theorem not_mentions_strings (texts : List String) : ¬Mentions n (texts.map .str) := by
  induction texts with
  | nil => simp
  | cons text texts ih =>
    rw [List.map_cons, mentions_cons]
    simpa using ih

theorem mentions_map {α : Type} {xs : List α} {f : α → Expr} : Mentions n (xs.map f) ↔ ∃ x ∈ xs, Mentions n [f x] := by
  induction xs with
  | nil => simp
  | cons x xs ih => rw [List.map_cons, mentions_cons, ih, List.exists_mem_cons_iff]

end Script

open Script

mutual

def Expr.names : Expr → List String
  | .bind target m => target.names ++ m.names
  | .call c => c.names
  | .identifier name => [name]
  | .list items => itemNames items
  | .object entries => entryNames entries
  | .string _ => []
  | .number _ => []
  | .boolean _ => []
  | .templateVar _ => []

def itemNames : List Expr → List String
  | [] => []
  | e :: es => e.names ++ itemNames es

def entryNames : List (String × Expr) → List String
  | [] => []
  | (_, e) :: entries => e.names ++ entryNames entries

def argumentNames (skip : Option String → Bool) : List Argument → List String
  | [] => []
  | ⟨name, e⟩ :: args => (if skip name then [] else e.names) ++ argumentNames skip args

def caseNames : List (Expr × List Expr) → List String
  | [] => []
  | (condition, action) :: cases => condition.names ++ itemNames action ++ caseNames cases

def RouterBlock.names : RouterBlock → List String
  | ⟨cases, none⟩ => caseNames cases
  | ⟨cases, some action⟩ => caseNames cases ++ itemNames action

/-- The names that the code of a call mentions; a kind and an argument that is passed over do not count. -/
def Call.names : Call → List String
  | ⟨name, args, none⟩ => argumentNames (fun n => isShadowed name args n || isKind name n) args
  | ⟨name, args, some b⟩ => argumentNames (fun n => isShadowed name args n || isKind name n) args ++ b.names

end

theorem mem_itemNames {es : List Expr} {n : String} : n ∈ itemNames es ↔ ∃ e ∈ es, n ∈ e.names := by
  induction es with
  | nil => simp [itemNames]
  | cons e es ih => rw [itemNames, List.mem_append, ih, List.exists_mem_cons_iff]

theorem mem_entryNames {entries : List (String × Expr)} {n : String} :
    n ∈ entryNames entries ↔ ∃ x ∈ entries, n ∈ x.2.names := by
  induction entries with
  | nil => simp [entryNames]
  | cons x entries ih => rw [entryNames, List.mem_append, ih, List.exists_mem_cons_iff]

theorem mem_argumentNames {skip : Option String → Bool} {args : List Argument} {n : String} :
    n ∈ argumentNames skip args ↔ ∃ a ∈ args, skip a.name = false ∧ n ∈ a.value.names := by
  induction args with
  | nil => simp [argumentNames]
  | cons a args ih =>
    obtain ⟨name, e⟩ := a
    rw [argumentNames, List.mem_append, ih, List.exists_mem_cons_iff]
    cases skip name <;> simp

theorem Call.names_eq (name : String) (args : List Argument) (b : RouterBlock) :
    (Call.mk name args (some b)).names =
      argumentNames (fun n => isShadowed name args n || isKind name n) args ++
        (caseNames b.cases ++ b.fallback.elim [] itemNames) := by
  obtain ⟨cases, _ | action⟩ := b
  · simp [names, RouterBlock.names]
  · rfl

/-- A target with modifiers has the names of the innermost target and those of the modifiers. -/
theorem Expr.mem_names_iff {e : Expr} {n : String} :
    n ∈ e.names ↔ n ∈ e.flatten.1.names ∨ ∃ m ∈ e.flatten.2, n ∈ m.names := by
  fun_induction Expr.flatten e with
  | case1 target m base modifiers hflatten ih =>
    rw [hflatten] at ih
    rw [Expr.names, List.mem_append, ih]
    simp only [List.mem_append, List.mem_singleton, or_and_right, exists_or, exists_eq_left, or_assoc]
  | case2 e hbind => simp

section Arranged

variable {args used : List Argument} {component : String} {vs out : List Script.Expr} {n : String}

theorem Configured.mentions_iff {v : Script.Expr} (h : Configured args used vs v) :
    Mentions n [v] ↔ Mentions n vs := by
  cases h with
  | sole _ => rfl
  | fields _ _ => exact mentions_object

theorem not_mentions_schemaOf (fields : List (String × String)) : ¬Mentions n [Component.schemaOf fields] := by
  have hnames := not_mentions_strings (n := n) (fields.map Prod.fst)
  rw [List.map_map] at hnames
  have hproperties : ¬Mentions n (fields.map fun f => .object [("type", .str f.2)]) := by
    rw [mentions_map]
    simp
  rw [Component.schemaOf, mentions_object, List.map_cons, List.map_cons, List.map_cons, mentions_cons_cons,
    mentions_cons_cons, List.map_nil, mentions_object, List.map_map, mentions_array]
  simpa using ⟨hproperties, hnames⟩

theorem not_mentions_templateArgs (text : String) : ¬Mentions n (Component.templateArgs text) := by
  unfold Component.templateArgs
  dsimp only
  split
  · exact not_mentions_str
  · rw [mentions_cons, mentions_array]
    simpa using not_mentions_strings _

/-- What a component makes of the values of its arguments mentions what they mention. -/
theorem Arranged.mentions_iff (h : Arranged args component used vs out) : Mentions n out ↔ Mentions n vs := by
  cases h with
  | model h => exact h.mentions_iff
  | @tool name handler description schema v h d c _ _ _ _ _ _ _ =>
    have hd : Mentions n [d.getD (.str "")] ↔ Mentions n d.toList := by cases d <;> simp
    have hc : Mentions n [c.getD (Component.schemaOf [])] ↔ Mentions n c.toList := by
      cases c with
      | none => simp [not_mentions_schemaOf]
      | some c => rfl
    have hvs : Mentions n (v :: (d.toList ++ h :: c.toList)) ↔
        Mentions n [v] ∨ Mentions n d.toList ∨ Mentions n [h] ∨ Mentions n c.toList :=
      mentions_cons.trans (or_congr_right (mentions_append.trans (or_congr_right mentions_cons)))
    rw [mentions_cons_cons, mentions_cons_cons, mentions_cons_cons, hd, hc, hvs]
  | text _ _ => simp [not_mentions_templateArgs]
  | placeholder _ _ => simp
  | prompt _ _ => rfl
  | @builtin a kind fs _ _ _ =>
    cases fs with
    | nil => simp
    | cons f fs => simp
  | router h =>
    rw [mentions_cons_cons, h.mentions_iff]
    simp
  | _ => rfl

end Arranged

section Lowered

variable {n : String} (hn : Lower.isEndpoint n = false)

def Mentioning (n : String) (x : Lower Script.Expr) (names : List String) : Prop :=
  ∀ s v t, x s = (.ok v, t) → (Mentions n [v] ↔ n ∈ names)

/-- What is run in order mentions what its members do. -/
theorem mentions_of_run {α : Type} {f : α → Lower Script.Expr} {names : α → List String} {xs : List α}
    (h : ∀ x ∈ xs, Mentioning n (f x) (names x)) {s t : Scope} {vs : List Script.Expr}
    (hrun : RunInOrder (xs.map f) s vs t) : Mentions n vs ↔ ∃ x ∈ xs, n ∈ names x := by
  induction xs generalizing s vs with
  | nil =>
    cases hrun
    simp
  | cons x xs ih =>
    obtain ⟨hx, hxs⟩ := List.forall_mem_cons.1 h
    cases hrun with
    | cons hfirst hrest => rw [mentions_cons, hx s _ _ hfirst, ih hxs hrest, List.exists_mem_cons_iff]

/-- The names of a call without branches are those of the arguments that it lowers. -/
theorem Arranged.mem_argumentNames_iff {args used : List Argument} {component : String} {vs out : List Script.Expr}
    (hshape : WellFormed.Shape args) (h : Arranged args component used vs out)
    (hargs : ∀ a ∈ args, Mentioning n a.lower a.value.names) {s t : Scope}
    (hrun : RunInOrder (used.map Argument.lower) s vs t) :
    Mentions n out ↔ n ∈ argumentNames (fun m => isShadowed component args m || isKind component m) args := by
  rw [h.mentions_iff, mentions_of_run (fun a ha => hargs a (h.mem_args a ha)) hrun, mem_argumentNames]
  constructor
  · rintro ⟨a, ha, hname⟩
    obtain ⟨hshadowed, hkind⟩ := h.not_shadowed ha
    exact ⟨a, h.mem_args a ha, by simp [hshadowed, hkind], hname⟩
  · rintro ⟨a, ha, hskip, hname⟩
    rw [Bool.or_eq_false_iff] at hskip
    rcases h.mem_used hshape ha hskip.1 hskip.2 with hused | ⟨text, hvalue⟩ | ⟨name, hvalue⟩
    · exact ⟨a, hused, hname⟩
    · rw [hvalue] at hname
      cases hname
    · rw [hvalue] at hname
      cases hname

section Endpoint

include hn

theorem mentioning_reference (name : String) (checked : Bool) :
    Mentioning n (Lower.reference name checked) [name] := by
  intro s v t hrun
  cases hendpoint : Lower.isEndpoint name with
  | true =>
    rw [Lower.reference_endpoint hendpoint] at hrun
    cases hrun
    have hne : n ≠ name := by
      rintro rfl
      rw [hn] at hendpoint
      cases hendpoint
    simp [hne]
  | false =>
    rw [Lower.reference_name hendpoint] at hrun
    cases hrun
    simp

theorem mentioning_of_value {e : Expr} (h : WellFormed.Value e) : Mentioning n e.lowerValue e.names := by
  induction h with
  | @identifier name _ =>
    rw [lowerValue_identifier]
    exact mentioning_reference hn name false
  | list _ ih =>
    intro s v t hrun
    obtain ⟨vs, hvs, rfl⟩ := lowerValue_list hrun
    rw [mentions_array, mentions_of_run ih hvs, Expr.names, mem_itemNames]
  | object _ _ ih =>
    intro s v t hrun
    obtain ⟨fs, hfs, rfl⟩ := lowerValue_object hrun
    rw [mentions_object, mentions_of_run ih hfs, Expr.names, mem_entryNames]
  | call hshape _ ih =>
    intro s v t hrun
    rw [lowerValue_call] at hrun
    obtain ⟨u, ⟨used, vs, out, harranged, hvs, rfl⟩, -⟩ := makes_of_lower hrun
    rw [mentions_new, harranged.mem_argumentNames_iff hshape ih hvs]
    rfl
  | _ =>
    intro s v t hrun
    cases hrun
    simp [Expr.names, mentions_singleton, Script.Expr.parts]

/-- A configuration has the names of all its arguments. -/
theorem Configured.mentions_names {args used : List Argument} {vs : List Script.Expr} {v : Script.Expr}
    (hargs : WellFormed.Args args) (h : Configured args used vs v) {s t : Scope}
    (hrun : RunInOrder (used.map Argument.lower) s vs t) : Mentions n [v] ↔ ∃ a ∈ args, n ∈ a.value.names := by
  rw [h.mentions_iff, mentions_of_run (fun a ha => mentioning_of_value hn (hargs.2 a (h.mem_args a ha))) hrun]
  constructor
  · rintro ⟨a, ha, hname⟩
    exact ⟨a, h.mem_args a ha, hname⟩
  · rintro ⟨a, ha, hname⟩
    exact ⟨a, h.mem_used hargs.1 ha, hname⟩

theorem mentions_of_attachments {m : Call} (hrouter : m.router = none) (hargs : WellFormed.Args m.args) {s t : Scope}
    {as : List Component.Attachment} (h : m.attachments s = (.ok as, t)) :
    Mentions n (as.map Prod.snd) ↔ n ∈ m.names := by
  obtain ⟨a, hsingle⟩ := exists_argument_of_attachments hargs.1 h
  have ha : a ∈ m.args := by simp [hsingle]
  have hattached := attached_of_attachments hargs.1 h a ha
  have hnames : m.name ≠ "Tool" → m.name ≠ "Builtin" → (n ∈ m.names ↔ n ∈ a.value.names) := by
    intro htool hbuiltin
    obtain ⟨name, args, router⟩ := m
    dsimp only at hrouter hsingle htool hbuiltin
    subst hrouter hsingle
    rw [Call.names, mem_argumentNames]
    simp [isShadowed_of_ne htool hbuiltin, isKind_of_ne hbuiltin]
  cases hattached with
  | @tools names hname hvalue =>
    rw [hnames (by simp [hname]) (by simp [hname]), hvalue, Expr.names, mem_itemNames, List.map_map, mentions_map]
    simp [Expr.names]
  | schema hname hlowers =>
    obtain ⟨s', t', hrun⟩ := hlowers
    rw [hnames (by simp [hname]) (by simp [hname])]
    exact mentioning_of_value hn (hargs.2 a ha) s' _ t' hrun

end Endpoint

/-- The base of a lowered expression mentions the names of the innermost target, and its attachments those of the
modifiers. -/
structure Named (n : String) (e : Expr) (b : Bound) : Prop where
  base : Mentions n [b.base] ↔ n ∈ e.flatten.1.names
  attachments : Mentions n (b.attachments.map Prod.snd) ↔ ∃ m ∈ e.flatten.2, n ∈ m.names

theorem mentions_value (b : Bound) :
    Mentions n [b.value] ↔ Mentions n [b.base] ∨ Mentions n (b.attachments.map Prod.snd) := by
  obtain ⟨base, attachments⟩ := b
  unfold Bound.value
  dsimp only
  induction attachments generalizing base with
  | nil => simp
  | cons x attachments ih =>
    rw [List.foldl_cons, ih, mentions_method, List.map_cons, or_assoc]
    exact or_congr_right mentions_cons.symm

theorem Named.value {e : Expr} {b : Bound} (h : Named n e b) : Mentions n [b.value] ↔ n ∈ e.names := by
  rw [mentions_value, h.base, h.attachments]
  exact Expr.mem_names_iff.symm

theorem named_plain {e : Expr} (hbind : e.isBind = false) {v : Script.Expr} (h : Mentions n [v] ↔ n ∈ e.names) :
    Named n e (.plain v) := by
  have hflatten : e.flatten = (e, []) := by
    cases e with
    | bind target m => cases hbind
    | _ => rfl
  constructor
  · rw [hflatten]
    exact h
  · simp [hflatten, Bound.plain]

/-- Where the expression is lowered, what it gives has its names. -/
def Naming (n : String) (e : Expr) : Prop := ∀ s b t, e.bound s = (.ok b, t) → Named n e b

theorem naming_of_lowerValue {e : Expr} (hbind : e.isBind = false) (h : Mentioning n e.lowerValue e.names) :
    Naming n e := by
  intro s b t hrun
  obtain ⟨v, hv, rfl⟩ := exists_plain_of_bound hbind hrun
  exact named_plain hbind (h s v t hv)

theorem mentions_chained (label : String) (nodes : List Script.Expr) :
    Mentions n [chained label nodes] ↔ Mentions n nodes := by
  have hfold : ∀ (nodes : List Script.Expr) (e : Script.Expr),
      Mentions n [nodes.foldl (fun e v => e.method "addNode" [v]) e] ↔ Mentions n [e] ∨ Mentions n nodes := by
    intro nodes
    induction nodes with
    | nil => simp
    | cons v nodes ih =>
      intro e
      rw [List.foldl_cons, ih, mentions_method, or_assoc]
      exact or_congr_right mentions_cons.symm
  rw [chained, hfold]
  simp

section Endpoint

include hn

theorem Naming.lowerStep {e : Expr} (h : Naming n e) : Mentioning n e.lowerStep e.names := by
  have hvalue : Mentioning n e.lowerValue e.names := by
    intro s v t hrun
    rw [lowerValue_eq] at hrun
    obtain ⟨b, hb, rfl⟩ := Lower.map_eq_ok.1 hrun
    exact (h s b t hb).value
  intro s v t hrun
  cases e with
  | identifier name => exact mentioning_reference hn name true s v t hrun
  | call c => exact hvalue s v t hrun
  | bind target m => exact hvalue s v t hrun
  | _ => exact absurd hrun Lower.fail_ne_ok

theorem Naming.asTarget {e : Expr} (h : Naming n e) {s t : Scope} {b : Bound}
    (hrun : asTarget e e.bound s = (.ok b, t)) : Named n e b := by
  cases e with
  | identifier name =>
    obtain ⟨v, hv, rfl⟩ := Lower.map_eq_ok.1 hrun
    exact named_plain rfl (mentioning_reference hn name true s v t hv)
  | call c => exact h s b t hrun
  | bind target m => exact h s b t hrun
  | _ => exact absurd hrun Lower.fail_ne_ok

theorem Naming.definitionValue {e : Expr} (h : Naming n e) {s t : Scope} {b : Bound}
    (hrun : Lower.definitionValue e s = (.ok b, t)) : Named n e b := by
  cases e with
  | identifier name =>
    obtain ⟨v, hv, rfl⟩ := Lower.map_eq_ok.1 hrun
    exact named_plain rfl (mentioning_reference hn name true s v t hv)
  | _ => exact h s b t hrun

theorem mentions_of_steps {es : List Expr} (h : ∀ e ∈ es, Naming n e) {s t : Scope} {vs : List Script.Expr}
    (hrun : RunInOrder (es.map Expr.lowerStep) s vs t) : Mentions n vs ↔ n ∈ itemNames es := by
  rw [mentions_of_run (fun e he => (h e he).lowerStep hn) hrun, mem_itemNames]

theorem mentions_of_routed {cases : List (Expr × List Expr)} (hconditions : ∀ x ∈ cases, WellFormed.Value x.1)
    (hactions : ∀ x ∈ cases, ∀ e ∈ x.2, Naming n e) {label : String} {index : Nat} {s t : Scope} {rs : List Script.Expr}
    (h : Routed label index cases s rs t) : Mentions n rs ↔ n ∈ caseNames cases := by
  induction h with
  | nil => simp [caseNames]
  | @cons index condition action cases c nodes rs s t u w hc hnodes _ ih =>
    obtain ⟨hcondition, hconditions⟩ := List.forall_mem_cons.1 hconditions
    obtain ⟨haction, hactions⟩ := List.forall_mem_cons.1 hactions
    have hbranch : Mentions n [chained (label ++ "_case_" ++ index.repr) nodes] ↔ n ∈ itemNames action :=
      (mentions_chained _ nodes).trans (mentions_of_steps hn haction hnodes)
    rw [mentions_cons, mentions_object, ih hconditions hactions, caseNames, List.mem_append, List.mem_append,
      ← mentioning_of_value hn hcondition s c t hc, ← hbranch]
    exact or_congr_left mentions_cons_cons

theorem mentions_of_fellBack {fallback : Option (List Expr)} (hactions : ∀ action ∈ fallback, ∀ e ∈ action, Naming n e)
    {label : String} {s t : Scope} {v : Script.Expr} (h : FellBack label fallback s v t) :
    Mentions n [v] ↔ n ∈ fallback.elim [] itemNames := by
  cases h with
  | none => simp
  | @some action nodes s t hnodes =>
    rw [mentions_chained, mentions_of_steps hn (hactions action rfl) hnodes]
    rfl

/-- An expression as a step or as a definition is lowered to code with its names. -/
theorem naming_of_step {e : Expr} (h : WellFormed.Step e) : Naming n e := by
  refine WellFormed.Step.fold (P := Naming n) ?_ ?_ ?_ h
  · intro e he
    exact naming_of_lowerValue (by cases he <;> rfl) (mentioning_of_value hn he)
  · intro args b hargs hb hcases hfallback
    refine naming_of_lowerValue rfl fun s v t hrun => ?_
    rw [lowerValue_call] at hrun
    obtain ⟨used, vs, config, u, rs, w, fallback, hconfigured, hvs, hrouted, hfellBack, rfl⟩ := makesRouter_of_lower hrun
    obtain ⟨hconditions, -, -⟩ := hb
    rw [mentions_new, mentions_cons_cons, mentions_cons_cons, mentions_array, hconfigured.mentions_names hn hargs hvs,
      mentions_of_routed hn hconditions hcases hrouted, mentions_of_fellBack hn hfallback hfellBack, Expr.names,
      Call.names_eq, List.mem_append, List.mem_append, mem_argumentNames]
    simp [isShadowed_of_ne, isKind_of_ne, Keyword.spelling]
  · intro e name args _ ih _ hargs s b t hrun
    obtain ⟨b, u, htarget, hrun⟩ := Lower.bind_eq_ok.1 hrun
    obtain ⟨as, w, has, hrun⟩ := Lower.bind_eq_ok.1 hrun
    cases hrun
    obtain ⟨hbase, hattachments⟩ := ih.asTarget hn htarget
    constructor
    · rw [Expr.flatten_bind]
      exact hbase
    · rw [Expr.flatten_bind, Bound.attach, List.map_append, mentions_append, hattachments,
        mentions_of_attachments hn rfl hargs has]
      simp only [List.mem_append, List.mem_singleton, or_and_right, exists_or, exists_eq_left]

end Endpoint

end Lowered

end ChainCompiler
