import ChainCompiler.Proofs.Lowering.Arrangement
import ChainCompiler.Proofs.Lowering.Chains

/-! The warnings of a compilation, read off the program. Some of the names in a program are checked: those that stand
alone where a component belongs, and the tools that are bound. A compilation that succeeds gives one warning for each
checked name that no statement declares, in the order in which it lowers them, behind those for repeated statements. -/

namespace ChainCompiler

open Lower (Ensures)

/-- A name that ought to be declared, by how it is used. -/
inductive Check where
  | reference (name : String)
  | tool (name : String)
  deriving DecidableEq, Repr

namespace Check

def name : Check → String
  | reference name => name
  | tool name => name

/-- The warning that a check gives in a statement on the line, unless the name is declared. -/
def warning? (declared : List String) (line : Nat) (c : Check) : Option Warning :=
  if c.name ∈ declared then none
  else
    match c with
    | reference name => some (.undeclared line name)
    | tool name => some (.undeclaredTool line name)

/-- An expression that is a name is checked, unless the name is one of those that stand for a new component. -/
def bare : Expr → List Check
  | .identifier name => if name = "Input" ∨ name = "StringOutput" then [] else [reference name]
  | _ => []

def tools : Expr → List Check
  | .list items => items.filterMap fun e =>
    match e with
    | .identifier name => some (tool name)
    | _ => none
  | _ => []

end Check

/-- What a modifier checks itself: the tools of a `bind`, or the structure of an `output` if that is a name. -/
def Call.modifierChecks (m : Call) : List Check :=
  if m.name = "bind" then (m.argument? "tools").elim [] Check.tools
  else if m.name = "output" then (m.argument? "schema").elim [] Check.bare
  else []

mutual

/-- The checks in an expression, at any depth: its steps, its targets of modifiers and its modifiers, in order. The
expression itself, if it is a name, is not checked. -/
def Expr.checks : Expr → List Check
  | .bind target m => Check.bare target ++ target.checks ++ (m.modifierChecks ++ m.checks)
  | .call c => c.checks
  | .list items => itemChecks items
  | .object entries => entryChecks entries
  | .identifier _ => []
  | .string _ => []
  | .number _ => []
  | .boolean _ => []
  | .templateVar _ => []

def itemChecks : List Expr → List Check
  | [] => []
  | e :: es => e.checks ++ itemChecks es

def entryChecks : List (String × Expr) → List Check
  | [] => []
  | (_, e) :: entries => e.checks ++ entryChecks entries

def argumentChecks : List Argument → List Check
  | [] => []
  | ⟨_, e⟩ :: args => e.checks ++ argumentChecks args

def stepChecks : List Expr → List Check
  | [] => []
  | e :: es => Check.bare e ++ e.checks ++ stepChecks es

def caseChecks : List (Expr × List Expr) → List Check
  | [] => []
  | (condition, action) :: cases => condition.checks ++ stepChecks action ++ caseChecks cases

def RouterBlock.checks : RouterBlock → List Check
  | ⟨cases, none⟩ => caseChecks cases
  | ⟨cases, some action⟩ => caseChecks cases ++ stepChecks action

def Call.checks : Call → List Check
  | ⟨_, args, none⟩ => argumentChecks args
  | ⟨_, args, some b⟩ => argumentChecks args ++ b.checks

end

/-- The checks in a statement. The value of a definition is checked itself. -/
def Statement.checks (st : Statement) : List Check :=
  match st.declaration with
  | .definition value => Check.bare value ++ value.checks
  | .chain steps context => stepChecks steps ++ context.elim [] Call.checks
  | .schema _ => []

namespace Program

def repeats (p : Program) : List Warning :=
  (p.inits.zip p).filterMap fun x => if x.2.name ∈ x.1.map (·.name) then some (.repeated x.2.line x.2.name) else none

def names (p : Program) : List String := p.map (·.name)

end Program

theorem itemChecks_eq_flatMap (es : List Expr) : itemChecks es = es.flatMap Expr.checks := by
  induction es with
  | nil => rfl
  | cons e es ih => rw [itemChecks, ih, List.flatMap_cons]

theorem entryChecks_eq_flatMap (entries : List (String × Expr)) :
    entryChecks entries = entries.flatMap fun x => x.2.checks := by
  induction entries with
  | nil => rfl
  | cons x entries ih => rw [entryChecks, ih, List.flatMap_cons]

theorem argumentChecks_eq_flatMap (args : List Argument) :
    argumentChecks args = args.flatMap fun a => a.value.checks := by
  induction args with
  | nil => rfl
  | cons a args ih =>
    obtain ⟨name, e⟩ := a
    rw [argumentChecks, ih, List.flatMap_cons]

theorem stepChecks_eq_flatMap (es : List Expr) : stepChecks es = es.flatMap fun e => Check.bare e ++ e.checks := by
  induction es with
  | nil => rfl
  | cons e es ih => rw [stepChecks, ih, List.flatMap_cons]

theorem Call.checks_eq (name : String) (args : List Argument) (b : RouterBlock) :
    (Call.mk name args (some b)).checks =
      argumentChecks args ++ (caseChecks b.cases ++ b.fallback.elim [] stepChecks) := by
  obtain ⟨cases, _ | action⟩ := b
  · simp [checks, RouterBlock.checks]
  · rfl

/-- Between the two scopes the checks give their warnings, for what is declared and the line there. -/
structure Warns (s : Scope) (cs : List Check) (t : Scope) : Prop where
  warnings : t.warnings = s.warnings ++ cs.filterMap (Check.warning? s.declared s.line)
  declared : t.declared = s.declared
  line : t.line = s.line

namespace Warns

variable {s t u : Scope} {cs ds : List Check}

theorem silent (hwarnings : t.warnings = s.warnings) (hdeclared : t.declared = s.declared) (hline : t.line = s.line) :
    Warns s [] t := ⟨by simpa using hwarnings, hdeclared, hline⟩

theorem refl : Warns s [] s := silent rfl rfl rfl

theorem append (h : Warns s cs t) (h' : Warns t ds u) : Warns s (cs ++ ds) u := by
  refine ⟨?_, h'.declared.trans h.declared, h'.line.trans h.line⟩
  rw [h'.warnings, h.warnings, h.declared, h.line, List.filterMap_append, List.append_assoc]

theorem noting {className : String} : Warns s [] (s.note className) := silent rfl rfl rfl

theorem counting : Warns s [] s.count := silent rfl rfl rfl

theorem register (s : Scope) (name : String) : Warns s [.tool name] (s.register name) := by
  have hwarned : Warns s [.tool name]
      (if s.declared.contains name then s else s.warn (.undeclaredTool s.line name)) := by
    by_cases hdeclared : name ∈ s.declared
    · rw [if_pos (by simpa using hdeclared)]
      exact ⟨by simp [Check.warning?, Check.name, hdeclared], rfl, rfl⟩
    · rw [if_neg (by simpa using hdeclared)]
      exact ⟨by simp [Check.warning?, Check.name, hdeclared, Scope.warn], rfl, rfl⟩
  unfold Scope.register
  generalize (if s.declared.contains name then s else s.warn (.undeclaredTool s.line name)) = u at hwarned ⊢
  dsimp only
  split
  · exact hwarned
  · exact ⟨hwarned.warnings, hwarned.declared, hwarned.line⟩

theorem registerAll (s : Scope) (names : List String) :
    Warns s (names.map .tool) (names.foldl Scope.register s) := by
  induction names generalizing s with
  | nil => exact refl
  | cons name names ih => exact (register s name).append (ih (s.register name))

end Warns

/-- The step gives the warnings of the checks, where it succeeds. -/
def Checking {α : Type} (x : Lower α) (cs : List Check) : Prop := ∀ s, Ensures x s fun _ t => Warns s cs t

namespace Checking

theorem map {α β : Type} {x : Lower α} {cs : List Check} (g : α → β) (h : Checking x cs) : Checking (g <$> x) cs :=
  fun s => .map (h s)

theorem fail {α : Type} {cause : Cause} {cs : List Check} : Checking (Lower.fail cause : Lower α) cs := fun _ => .fail

theorem lowerValue_iff {e : Expr} {cs : List Check} : Checking e.lowerValue cs ↔ Checking e.bound cs := by
  rw [lowerValue_eq]
  exact ⟨fun h s _ t hrun => h s _ t (Lower.map_of_ok Bound.value hrun), fun h => h.map _⟩

theorem reference (name : String) : Checking (Lower.reference name true) (Check.bare (.identifier name)) := by
  intro s v t hrun
  cases hendpoint : Lower.isEndpoint name with
  | true =>
    rw [Lower.reference_endpoint hendpoint] at hrun
    cases hrun
    rw [Check.bare, if_pos (by simpa [Lower.isEndpoint] using hendpoint)]
    exact .silent rfl rfl rfl
  | false =>
    rw [Lower.reference_name hendpoint] at hrun
    cases hrun
    rw [Check.bare, if_neg (by simpa [Lower.isEndpoint] using hendpoint)]
    by_cases hdeclared : name ∈ s.declared
    · rw [if_neg (by simpa using hdeclared)]
      exact ⟨by simp [Check.warning?, Check.name, hdeclared], rfl, rfl⟩
    · rw [if_pos (by simpa using hdeclared)]
      exact ⟨by simp [Check.warning?, Check.name, hdeclared, Scope.warn], rfl, rfl⟩

theorem unchecked (name : String) : Checking (Lower.reference name false) [] := by
  intro s v t hrun
  cases hendpoint : Lower.isEndpoint name with
  | true =>
    rw [Lower.reference_endpoint hendpoint] at hrun
    cases hrun
    exact .silent rfl rfl rfl
  | false =>
    rw [Lower.reference_name hendpoint] at hrun
    cases hrun
    exact .refl

/-- Steps that are run in order give their warnings in order. -/
theorem inOrder {α : Type} {xs : List α} {f : α → Lower Script.Expr} {cs : α → List Check}
    (h : ∀ x ∈ xs, Checking (f x) (cs x)) {s t : Scope} {vs : List Script.Expr}
    (hrun : RunInOrder (xs.map f) s vs t) : Warns s (xs.flatMap cs) t := by
  induction xs generalizing s vs with
  | nil =>
    cases hrun
    exact .refl
  | cons x xs ih =>
    obtain ⟨hx, hxs⟩ := List.forall_mem_cons.1 h
    cases hrun with
    | cons hfirst hrest => exact (hx s _ _ hfirst).append (ih hxs hrest)

/-- Steps that are run in order and check nothing. -/
theorem silentInOrder {α : Type} {xs : List α} {f : α → Lower Script.Expr} (h : ∀ x ∈ xs, Checking (f x) [])
    {s t : Scope} {vs : List Script.Expr} (hrun : RunInOrder (xs.map f) s vs t) : Warns s [] t := by
  have hwarns := inOrder h hrun
  rwa [List.flatMap_eq_nil_iff.2 fun _ _ => rfl] at hwarns

end Checking

section WellFormed

/-- There is nothing to check in a value. -/
theorem checks_of_value {e : Expr} (h : WellFormed.Value e) : e.checks = [] := by
  induction h with
  | list _ ih =>
    rw [Expr.checks, itemChecks_eq_flatMap]
    exact List.flatMap_eq_nil_iff.2 ih
  | object _ _ ih =>
    rw [Expr.checks, entryChecks_eq_flatMap]
    exact List.flatMap_eq_nil_iff.2 ih
  | call _ _ ih =>
    rw [Expr.checks, Call.checks, argumentChecks_eq_flatMap]
    exact List.flatMap_eq_nil_iff.2 ih
  | _ => rfl

theorem argumentChecks_of_args {args : List Argument} (h : WellFormed.Args args) : argumentChecks args = [] := by
  rw [argumentChecks_eq_flatMap]
  exact List.flatMap_eq_nil_iff.2 fun a ha => checks_of_value (h.2 a ha)

/-- Values are lowered without warnings. -/
theorem checking_of_value {e : Expr} (h : WellFormed.Value e) : Checking e.lowerValue [] := by
  induction h with
  | @identifier name _ =>
    rw [lowerValue_identifier]
    exact .unchecked name
  | list _ ih =>
    intro s v t hrun
    obtain ⟨vs, hvs, -⟩ := lowerValue_list hrun
    exact Checking.silentInOrder ih hvs
  | object _ _ ih =>
    intro s v t hrun
    obtain ⟨fs, hfs, -⟩ := lowerValue_object hrun
    exact Checking.silentInOrder ih hfs
  | call _ _ ih =>
    intro s v t hrun
    rw [lowerValue_call] at hrun
    obtain ⟨u, ⟨used, vs, out, harranged, hvs, -⟩, hu⟩ := makes_of_lower hrun
    have hquiet : Warns s [] u :=
      Warns.noting.append (Checking.silentInOrder (fun a ha => ih a (harranged.mem_args a ha)) hvs)
    rcases hu with rfl | rfl
    · exact hquiet
    · exact hquiet.append .counting
  | _ =>
    intro s v t hrun
    cases hrun
    exact .refl

theorem warns_of_used {args used : List Argument} (hargs : WellFormed.Args args) (hused : ∀ a ∈ used, a ∈ args)
    {s t : Scope} {vs : List Script.Expr} (hrun : RunInOrder (used.map Argument.lower) s vs t) : Warns s [] t :=
  Checking.silentInOrder (fun a ha => checking_of_value (hargs.2 a (hused a ha))) hrun

theorem warns_of_attaches {m : Call} (hargs : WellFormed.Args m.args) {s t : Scope} {as : List Component.Attachment}
    (h : Attaches m s as t) : Warns s m.modifierChecks t := by
  unfold Call.modifierChecks
  cases h with
  | @tools names hname hargument =>
    have hchecks : Check.tools (.list (names.map .identifier)) = names.map .tool := by
      simp [Check.tools, List.filterMap_map]
    rw [if_pos hname, hargument, Option.elim_some, hchecks]
    exact .registerAll s names
  | named hname hargument hrun =>
    rw [if_neg (by simp [hname]), if_pos hname, hargument]
    exact Checking.reference _ s _ _ hrun
  | given hname hargument hrun =>
    obtain ⟨a, ha, hvalue⟩ := Call.exists_of_argument? hargument
    rw [if_neg (by simp [hname]), if_pos hname, hargument]
    exact checking_of_value (hvalue ▸ hargs.2 a ha) s _ _ hrun

/-- A name that is used as a step is checked; all else is checked as a value is. -/
theorem checking_step {e : Expr} (h : Checking e.bound e.checks) : Checking e.lowerStep (Check.bare e ++ e.checks) := by
  have hvalue := Checking.lowerValue_iff.2 h
  cases e with
  | identifier name =>
    rw [Expr.checks, List.append_nil]
    exact .reference name
  | call c => exact hvalue
  | bind target m => exact hvalue
  | _ => exact .fail

theorem checking_target {e : Expr} (h : Checking e.bound e.checks) :
    Checking (asTarget e e.bound) (Check.bare e ++ e.checks) := by
  cases e with
  | identifier name =>
    rw [Expr.checks, List.append_nil]
    exact (Checking.reference name).map _
  | call c => exact h
  | bind target m => exact h
  | _ => exact .fail

theorem checking_definitionValue {e : Expr} (h : Checking e.bound e.checks) :
    Checking (Lower.definitionValue e) (Check.bare e ++ e.checks) := by
  cases e with
  | identifier name =>
    rw [Expr.checks, List.append_nil]
    exact (Checking.reference name).map _
  | _ => exact h

theorem warns_of_steps {es : List Expr} (h : ∀ e ∈ es, Checking e.bound e.checks) {s t : Scope}
    {vs : List Script.Expr} (hrun : RunInOrder (es.map Expr.lowerStep) s vs t) : Warns s (stepChecks es) t := by
  rw [stepChecks_eq_flatMap]
  exact Checking.inOrder (fun e he => checking_step (h e he)) hrun

theorem warns_of_routed {cases : List (Expr × List Expr)} (hconditions : ∀ x ∈ cases, WellFormed.Value x.1)
    (hactions : ∀ x ∈ cases, ∀ e ∈ x.2, Checking e.bound e.checks) {label : String} {index : Nat} {s t : Scope}
    {rs : List Script.Expr} (h : Routed label index cases s rs t) : Warns s (caseChecks cases) t := by
  induction h with
  | nil => exact .refl
  | @cons index condition action cases c nodes rs s t u w hc hnodes _ ih =>
    obtain ⟨hcondition, hconditions⟩ := List.forall_mem_cons.1 hconditions
    obtain ⟨haction, hactions⟩ := List.forall_mem_cons.1 hactions
    rw [caseChecks, checks_of_value hcondition, List.nil_append]
    have hquiet : Warns s [] t := checking_of_value hcondition s c t hc
    exact ((hquiet.append .noting).append (warns_of_steps haction hnodes)).append (ih hconditions hactions)

theorem warns_of_fellBack {fallback : Option (List Expr)}
    (hactions : ∀ action ∈ fallback, ∀ e ∈ action, Checking e.bound e.checks) {label : String} {s t : Scope}
    {v : Script.Expr} (h : FellBack label fallback s v t) : Warns s (fallback.elim [] stepChecks) t := by
  cases h with
  | none => exact .refl
  | @some action nodes s t hnodes => exact Warns.noting.append (warns_of_steps (hactions action rfl) hnodes)

/-- An expression as a step or as a definition is lowered with the warnings of what is checked in it. -/
theorem checking_of_step {e : Expr} (h : WellFormed.Step e) : Checking e.bound e.checks := by
  refine WellFormed.Step.fold (P := fun e => Checking e.bound e.checks) ?_ ?_ ?_ h
  · intro e he
    rw [checks_of_value he]
    exact Checking.lowerValue_iff.1 (checking_of_value he)
  · intro args b hargs hb hcases hfallback
    refine Checking.lowerValue_iff.1 fun s v t hrun => ?_
    rw [lowerValue_call] at hrun
    obtain ⟨used, vs, config, u, rs, w, fallback, hconfigured, hvs, hrouted, hfellBack, -⟩ := makesRouter_of_lower hrun
    obtain ⟨hconditions, -, -⟩ := hb
    have hquiet : Warns s [] u := Warns.noting.append (warns_of_used hargs hconfigured.mem_args hvs)
    have hcounted : Warns s [] u.count := hquiet.append .counting
    rw [Expr.checks, Call.checks_eq, argumentChecks_of_args hargs, List.nil_append]
    exact (hcounted.append (warns_of_routed hconditions hcases hrouted)).append (warns_of_fellBack hfallback hfellBack)
  · intro e name args _ ih _ hargs
    have hnone : (Call.mk name args none).checks = [] := argumentChecks_of_args hargs
    rw [Expr.checks, hnone, List.append_nil]
    intro s
    refine .bind (checking_target ih s) fun b t hb => .bind (attachments_attaches _ t) fun as u has => .pure ?_
    exact hb.append (warns_of_attaches hargs has)

theorem warns_of_memory {context : Call} (h : WellFormed.Context context) {s t : Scope} {config : Script.Expr}
    (hrun : Lower.memory context s = (.ok config, t)) : Warns s context.checks t := by
  obtain ⟨name, args, router⟩ := context
  obtain ⟨-, hrouter, hargs⟩ := h
  dsimp only at hrouter hargs
  subst hrouter
  rw [Call.checks, argumentChecks_of_args hargs]
  obtain ⟨used, vs, u, hconfigured, hvs, rfl⟩ := Lower.configured_of_memory hrun
  exact (warns_of_used hargs hconfigured.mem_args hvs).append .noting

end WellFormed

namespace Lower

variable {st : Statement} {p : Program} {s t : Scope} {l : Lowered} {ls : List Lowered}

/-- A statement is lowered with the warnings of its checks, for its line. -/
theorem warns_of_statement (hst : WellFormed.Statement st) (h : statement st s = (.ok l, t)) :
    Warns (s.entered st) st.checks t := by
  have hdeclaration := hst.2
  unfold Statement.checks
  cases hdecl : st.declaration with
  | definition value =>
    rw [hdecl] at hdeclaration
    obtain ⟨b, hb, -⟩ := definitionValue_of_statement hdecl h
    exact checking_definitionValue (checking_of_step hdeclaration) _ b t hb
  | chain steps context =>
    rw [hdecl] at hdeclaration
    obtain ⟨⟨_, hsteps⟩, hcontext⟩ := hdeclaration
    obtain ⟨es, config, u, hes, hconfig, -⟩ := chain_of_statement hdecl h
    have hwarns : Warns (s.entered st) (stepChecks steps) u :=
      Warns.noting.append (warns_of_steps (fun e he => checking_of_step (hsteps e he)) hes)
    cases context with
    | none =>
      cases hconfig
      simpa using hwarns
    | some context =>
      obtain ⟨v, -, hv⟩ := mapM_memory_some hconfig
      exact hwarns.append (warns_of_memory (hcontext context rfl) hv)
  | schema fields =>
    obtain ⟨-, rfl⟩ := statement_schema hdecl h
    exact .refl

/-- The statements give their warnings one after the other. -/
theorem warnings_of_program (hp : ∀ st ∈ p, WellFormed.Statement st) (h : (program p).run s = (.ok ls, t)) :
    t.warnings = s.warnings ++ p.flatMap (fun st => st.checks.filterMap (Check.warning? s.declared st.line)) := by
  induction p generalizing s ls with
  | nil =>
    cases h
    simp
  | cons st p ih =>
    obtain ⟨hst, hp⟩ := List.forall_mem_cons.1 hp
    obtain ⟨l, ls', u, hlowered, hrest, -⟩ := program_cons_eq_ok h
    obtain ⟨hwarnings, hdeclared, -⟩ := warns_of_statement hst hlowered
    have hu : u.declared = s.declared := hdeclared
    have hu' : u.warnings = s.warnings ++ st.checks.filterMap (Check.warning? s.declared st.line) := hwarnings
    rw [ih hp hrest, hu', hu, List.flatMap_cons, List.append_assoc]

end Lower

namespace Program

/-- A statement is warned of when its name is among those seen before it. -/
theorem repeatedNames_eq (seen : List String) (front p : Program) (hseen : ∀ n, n ∈ seen ↔ n ∈ front.map (·.name)) :
    repeatedNames seen p = ((p.inits.map (front ++ ·)).zip p).filterMap fun x =>
      if x.2.name ∈ x.1.map (·.name) then some (.repeated x.2.line x.2.name) else none := by
  induction p generalizing seen front with
  | nil => rfl
  | cons st p ih =>
    -- each later statement has `st` before it, behind `front`
    have hfronts : ((st :: p).inits.map (front ++ ·)) = front :: p.inits.map ((front ++ [st]) ++ ·) := by
      simp [List.map_map, Function.comp_def]
    rw [hfronts, List.zip_cons_cons, List.filterMap_cons, repeatedNames]
    by_cases hname : st.name ∈ front.map (·.name)
    · have hcontains : seen.contains st.name = true := by simpa using (hseen _).2 hname
      rw [if_pos hcontains, if_pos hname, ih seen (front ++ [st])]
      intro n
      rw [hseen, List.map_append, List.mem_append]
      constructor
      · exact .inl
      · rintro (hn | hn)
        · exact hn
        · rwa [List.mem_singleton.1 hn]
    · have hcontains : ¬seen.contains st.name = true := by simpa using fun h => hname ((hseen _).1 h)
      rw [if_neg hcontains, if_neg hname, ih (st.name :: seen) (front ++ [st])]
      intro n
      rw [List.map_append, List.mem_append, List.mem_cons, hseen, or_comm]
      simp

theorem repeatedNames_nil (p : Program) : repeatedNames [] p = p.repeats := by
  rw [repeatedNames_eq [] [] p (by simp)]
  simp [repeats]

theorem repeatedNames_eq_nil_iff (seen : List String) (p : Program) :
    repeatedNames seen p = [] ↔ p.names.Nodup ∧ ∀ n ∈ p.names, n ∉ seen := by
  induction p generalizing seen with
  | nil => simp [repeatedNames, names]
  | cons st p ih =>
    have hnames : names (st :: p) = st.name :: names p := rfl
    rw [hnames, repeatedNames, List.nodup_cons, List.forall_mem_cons]
    by_cases hseen : st.name ∈ seen
    · rw [if_pos (by simpa using hseen)]
      simp [hseen]
    · rw [if_neg (by simpa using hseen), ih]
      simp only [List.mem_cons, not_or]
      constructor
      · rintro ⟨hnodup, hfresh⟩
        exact ⟨⟨fun hmem => (hfresh _ hmem).1 rfl, hnodup⟩, hseen, fun n hn => (hfresh n hn).2⟩
      · rintro ⟨⟨hfirst, hnodup⟩, -, hfresh⟩
        exact ⟨hnodup, fun n hn => ⟨fun heq => hfirst (heq ▸ hn), hfresh n hn⟩⟩

end Program

theorem Check.warning?_eq_none_iff {declared : List String} {line : Nat} {c : Check} :
    c.warning? declared line = none ↔ c.name ∈ declared := by
  unfold warning?
  split
  · next h => exact ⟨fun _ => h, fun _ => rfl⟩
  · next h =>
    constructor
    · intro hnone
      cases c <;> cases hnone
    · exact fun hmem => absurd hmem h

/-- Nothing is warned of when the names of the statements are distinct and all checked names are declared. -/
theorem Program.warnings_eq_nil_iff (p : Program) :
    p.repeats ++ p.flatMap (fun st => st.checks.filterMap (Check.warning? p.names st.line)) = [] ↔
      p.names.Nodup ∧ ∀ st ∈ p, ∀ c ∈ st.checks, c.name ∈ p.names := by
  rw [List.append_eq_nil_iff, ← repeatedNames_nil, repeatedNames_eq_nil_iff, List.flatMap_eq_nil_iff]
  simp only [List.filterMap_eq_nil_iff, Check.warning?_eq_none_iff, List.not_mem_nil, not_false_eq_true, implies_true,
    and_true]

/-- The warnings that a program from a source gives where it is lowered. -/
theorem warnings_of_ofProgram {source : String} {p : Program} (hp : Program.ofSource source = .ok p) {options : Options}
    {m : Module} (hm : (Module.ofProgram options p).1 = .ok m) :
    (Module.ofProgram options p).2 =
      p.repeats ++ p.flatMap (fun st => st.checks.filterMap (Check.warning? p.names st.line)) := by
  obtain ⟨ts, hsentences, hts⟩ := Program.sentences_of_ofSource hp
  obtain ⟨ls, t, hrun, -⟩ := Module.ofProgram_eq_ok hm
  have hwarnings := Lower.warnings_of_program (Grammar.wellFormed_of_sentences hsentences hts) hrun
  have hall : (Module.ofProgram options p).2 = t.warnings := by
    unfold Module.ofProgram
    rw [hrun]
  rw [hall, hwarnings, ← Program.repeatedNames_nil]
  rfl

/-- A compilation that succeeds gives exactly these warnings, in this order: one for each statement that has the name of
an earlier one, and then, statement by statement, one for each checked name that no statement of the program declares.
There are none when the statements have distinct names and all checked names are declared. -/
theorem warnings_of_generate {source : String} {p : Program} (hp : Program.ofSource source = .ok p) (options : Options)
    (name : String) {code : String} (h : (generate options name p).1 = .ok code) :
    (generate options name p).2 =
        p.repeats ++ p.flatMap (fun st => st.checks.filterMap (Check.warning? p.names st.line)) ∧
      ((generate options name p).2 = [] ↔ p.names.Nodup ∧ ∀ st ∈ p, ∀ c ∈ st.checks, c.name ∈ p.names) := by
  obtain ⟨m, hm, -⟩ := generate_eq_ok h
  have hwarnings : (generate options name p).2 = _ := warnings_of_ofProgram hp hm
  exact ⟨hwarnings, by rw [hwarnings, Program.warnings_eq_nil_iff]⟩

/-- A program with a name that is declared twice and others that are not declared, some of them in a branch. -/
def doubtfulSource : String :=
  "chain c = Router(v)\x7bcase w => x >> Input\ndefault => m @ bind([t, m])\x7d\n" ++
  "def m = y @ output(S)\nschema c\x7b\x7d"

def doubtfulProgram : Program :=
  let bound : Expr := .bind (.identifier "m") ⟨"bind", [⟨none, .list [.identifier "t", .identifier "m"]⟩], none⟩
  let block : RouterBlock := ⟨[(.identifier "w", [.identifier "x", .identifier "Input"])], some [bound]⟩
  [⟨"c", 1, .chain [.call ⟨"Router", [⟨none, .identifier "v"⟩], some block⟩] none⟩,
    ⟨"m", 3, .definition (.bind (.identifier "y") ⟨"output", [⟨none, .identifier "S"⟩], none⟩)⟩,
    ⟨"c", 4, .schema []⟩]

def doubtfulTokens : List Token :=
  [⟨.keyword .chainKw, "chain", ⟨1, 1⟩⟩, ⟨.identifier, "c", ⟨1, 7⟩⟩, ⟨.mark .assign, "=", ⟨1, 9⟩⟩,
    ⟨.keyword .router, "Router", ⟨1, 11⟩⟩, ⟨.mark .lparen, "(", ⟨1, 17⟩⟩, ⟨.identifier, "v", ⟨1, 18⟩⟩,
    ⟨.mark .rparen, ")", ⟨1, 19⟩⟩, ⟨.mark .lbrace, "\x7b", ⟨1, 20⟩⟩, ⟨.keyword .caseKw, "case", ⟨1, 21⟩⟩,
    ⟨.identifier, "w", ⟨1, 26⟩⟩, ⟨.mark .arrow, "=>", ⟨1, 28⟩⟩, ⟨.identifier, "x", ⟨1, 31⟩⟩,
    ⟨.mark .pipe, ">>", ⟨1, 33⟩⟩, ⟨.keyword .input, "Input", ⟨1, 36⟩⟩, ⟨.newline, "\n", ⟨1, 41⟩⟩,
    ⟨.keyword .defaultKw, "default", ⟨2, 1⟩⟩, ⟨.mark .arrow, "=>", ⟨2, 9⟩⟩, ⟨.identifier, "m", ⟨2, 12⟩⟩,
    ⟨.mark .bind, "@", ⟨2, 14⟩⟩, ⟨.identifier, "bind", ⟨2, 16⟩⟩, ⟨.mark .lparen, "(", ⟨2, 20⟩⟩,
    ⟨.mark .lbracket, "[", ⟨2, 21⟩⟩, ⟨.identifier, "t", ⟨2, 22⟩⟩, ⟨.mark .comma, ",", ⟨2, 23⟩⟩,
    ⟨.identifier, "m", ⟨2, 25⟩⟩, ⟨.mark .rbracket, "]", ⟨2, 26⟩⟩, ⟨.mark .rparen, ")", ⟨2, 27⟩⟩,
    ⟨.mark .rbrace, "\x7d", ⟨2, 28⟩⟩, ⟨.newline, "\n", ⟨2, 29⟩⟩, ⟨.keyword .defKw, "def", ⟨3, 1⟩⟩,
    ⟨.identifier, "m", ⟨3, 5⟩⟩, ⟨.mark .assign, "=", ⟨3, 7⟩⟩, ⟨.identifier, "y", ⟨3, 9⟩⟩, ⟨.mark .bind, "@", ⟨3, 11⟩⟩,
    ⟨.identifier, "output", ⟨3, 13⟩⟩, ⟨.mark .lparen, "(", ⟨3, 19⟩⟩, ⟨.identifier, "S", ⟨3, 20⟩⟩,
    ⟨.mark .rparen, ")", ⟨3, 21⟩⟩, ⟨.newline, "\n", ⟨3, 22⟩⟩, ⟨.keyword .schemaKw, "schema", ⟨4, 1⟩⟩,
    ⟨.identifier, "c", ⟨4, 8⟩⟩, ⟨.mark .lbrace, "\x7b", ⟨4, 9⟩⟩, ⟨.mark .rbrace, "\x7d", ⟨4, 10⟩⟩,
    ⟨.eof, "", ⟨4, 11⟩⟩]

theorem warnings_of_generate_doubtful :
    Program.ofSource doubtfulSource = .ok doubtfulProgram ∧
      (generate .standard "d" doubtfulProgram).2 =
        [.repeated 4 "c", .undeclared 1 "x", .undeclaredTool 1 "t", .undeclared 3 "y", .undeclared 3 "S"] := by
  have htokens : Token.tokenize doubtfulSource = .ok doubtfulTokens := rfl
  have hp : Program.ofSource doubtfulSource = .ok doubtfulProgram := (Program.ofSource_of_tokenize htokens).trans rfl
  have h : (generate .standard "d" doubtfulProgram).1 = .ok _ := rfl
  refine ⟨hp, (warnings_of_generate hp .standard "d" h).1.trans ?_⟩
  decide

end ChainCompiler
