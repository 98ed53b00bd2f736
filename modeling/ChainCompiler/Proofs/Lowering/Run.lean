import ChainCompiler.Module

/-! Runs of a lowering. A run that succeeds is a chain of runs, each from the scope that the one before it leaves, and
what it ensures is put together from what they ensure. The steps that touch the scope do so in one of four ways. A
program is lowered by such a run for each of its statements. -/

namespace ChainCompiler

namespace Scope

def warn (s : Scope) (w : Warning) : Scope := { s with warnings := s.warnings ++ [w] }

def note (s : Scope) (className : String) : Scope := { s with classes := insertSorted className s.classes }

/-- The scope with a tool in its registry; a tool that is not declared is warned of each time. -/
def register (s : Scope) (tool : String) : Scope :=
  let s := if s.declared.contains tool then s else s.warn (.undeclaredTool s.line tool)
  if s.tools.contains tool then s else { s with tools := s.tools ++ [tool] }

@[simp] theorem classes_register (s : Scope) (tool : String) : (s.register tool).classes = s.classes := by
  unfold register
  dsimp only
  split <;> split <;> rfl

theorem tools_register (s : Scope) (tool : String) :
    (s.register tool).tools = if s.tools.contains tool then s.tools else s.tools ++ [tool] := by
  have hwarned : (if s.declared.contains tool then s else s.warn (.undeclaredTool s.line tool)).tools = s.tools := by
    split <;> rfl
  unfold register
  dsimp only
  rw [hwarned]
  split
  · exact hwarned
  · rfl

theorem mem_tools_register {s : Scope} {tool n : String} (h : tool ∈ (s.register n).tools) :
    tool ∈ s.tools ∨ tool = n := by
  rw [tools_register] at h
  split at h
  · exact .inl h
  · rwa [List.mem_append, List.mem_singleton] at h

def count (s : Scope) : Scope := { s with routers := s.routers + 1 }

def label (s : Scope) : String := s.owner ++ "_r" ++ s.routers.repr

end Scope

namespace Lower

variable {α β : Type} {x : Lower α} {f : α → Lower β} {s t : Scope}

@[simp] theorem pure_apply (a : α) (s : Scope) : (pure a : Lower α) s = (.ok a, s) := rfl

theorem bind_apply (x : Lower α) (f : α → Lower β) (s : Scope) : (x >>= f) s = ExceptT.bindCont f (x s).1 (x s).2 := rfl

theorem bind_of_ok {a : α} (f : α → Lower β) (h : x s = (.ok a, t)) : (x >>= f) s = f a t := by
  rw [bind_apply, h]
  rfl

theorem bind_of_error {cause : Cause} (f : α → Lower β) (h : x s = (.error cause, t)) :
    (x >>= f) s = (.error cause, t) := by
  rw [bind_apply, h]
  rfl

/-- A sequence succeeds when its second part does in the scope that its first part leaves. -/
theorem bind_eq_ok {b : β} :
    (x >>= f) s = (.ok b, t) ↔ ∃ a u, x s = (.ok a, u) ∧ f a u = (.ok b, t) := by
  constructor
  · intro h
    rcases hx : x s with ⟨cause | a, u⟩
    · rw [bind_of_error f hx] at h
      cases h
    · rw [bind_of_ok f hx] at h
      exact ⟨a, u, rfl, h⟩
  · rintro ⟨a, u, hx, hf⟩
    rw [bind_of_ok f hx, hf]

theorem map_of_ok {a : α} (g : α → β) (h : x s = (.ok a, t)) : (g <$> x) s = (.ok (g a), t) := by
  rw [map_eq_pure_bind, bind_of_ok _ h, pure_apply]

theorem map_eq_ok {g : α → β} {b : β} : (g <$> x) s = (.ok b, t) ↔ ∃ a, x s = (.ok a, t) ∧ g a = b := by
  rw [map_eq_pure_bind, bind_eq_ok]
  constructor
  · rintro ⟨a, u, hx, hb⟩
    cases hb
    exact ⟨a, hx, rfl⟩
  · rintro ⟨a, hx, rfl⟩
    exact ⟨a, t, hx, rfl⟩

theorem fail_ne_ok {cause : Cause} {a : α} : (fail cause : Lower α) s ≠ (.ok a, t) := nofun

theorem need_apply (className : String) (s : Scope) : need className s = (.ok (), s.note className) := rfl

theorem routerLabel_apply (s : Scope) : routerLabel s = (.ok s.count.label, s.count) := rfl

theorem reference_endpoint {name : String} (h : isEndpoint name = true) (checked : Bool) (s : Scope) :
    reference name checked s = (.ok (.new name []), s.note name) := by
  rw [reference, if_pos h]
  rfl

theorem reference_name {name : String} (h : isEndpoint name = false) (checked : Bool) (s : Scope) :
    reference name checked s =
      (.ok (.ident name), if checked && !s.declared.contains name then s.warn (.undeclared s.line name) else s) := by
  rw [reference, if_neg (by simp [h]), bind_of_ok _ (show (get : Lower Scope) s = (.ok s, s) from rfl)]
  by_cases hwarn : (checked && !s.declared.contains name) = true
  · rw [if_pos hwarn, if_pos hwarn]
    rfl
  · rw [if_neg hwarn, if_neg hwarn]
    rfl

theorem registerTool_apply (name : String) (s : Scope) : registerTool name s = (.ok (), s.register name) := by
  rw [registerTool, bind_of_ok _ (show (get : Lower Scope) s = (.ok s, s) from rfl)]
  unfold Scope.register
  dsimp only
  by_cases hdeclared : s.declared.contains name = true
  · rw [if_pos hdeclared, if_pos hdeclared]
    by_cases htool : s.tools.contains name = true
    · rw [if_pos htool, if_pos htool]
      rfl
    · rw [if_neg htool, if_neg htool]
      rfl
  · rw [if_neg hdeclared, if_neg hdeclared]
    change _ = (_, if s.tools.contains name then _ else _)
    by_cases htool : s.tools.contains name = true
    · rw [if_pos htool, if_pos htool]
      rfl
    · rw [if_neg htool, if_neg htool]
      rfl

/-- Where `x` succeeds from `s`, what it gives and the scope it leaves satisfy `Q`. -/
def Ensures (x : Lower α) (s : Scope) (Q : α → Scope → Prop) : Prop := ∀ a t, x s = (.ok a, t) → Q a t

namespace Ensures

theorem pure {a : α} {Q : α → Scope → Prop} (h : Q a s) : Ensures (pure a) s Q := by
  intro b t hrun
  cases hrun
  exact h

theorem fail {cause : Cause} {Q : α → Scope → Prop} : Ensures (Lower.fail cause) s Q :=
  fun _ _ hrun => absurd hrun fail_ne_ok

theorem bind {R : α → Scope → Prop} {Q : β → Scope → Prop} (hx : Ensures x s R)
    (hf : ∀ a t, R a t → Ensures (f a) t Q) : Ensures (x >>= f) s Q := by
  intro b t hrun
  obtain ⟨a, u, hxa, hfa⟩ := bind_eq_ok.1 hrun
  exact hf a u (hx a u hxa) b t hfa

theorem map {g : α → β} {Q : β → Scope → Prop} (hx : Ensures x s fun a t => Q (g a) t) : Ensures (g <$> x) s Q := by
  intro b t hrun
  obtain ⟨a, hxa, rfl⟩ := map_eq_ok.1 hrun
  exact hx a t hxa

theorem fail_bind {cause : Cause} {Q : β → Scope → Prop} : Ensures (Lower.fail cause >>= f) s Q :=
  .bind (R := fun _ _ => False) .fail fun _ _ h => h.elim

/-- A step that always succeeds. -/
theorem bind_of_ok {a : α} {t : Scope} {Q : β → Scope → Prop} (hx : x s = (.ok a, t)) (hf : Ensures (f a) t Q) :
    Ensures (x >>= f) s Q := by
  intro b u hrun
  rw [Lower.bind_of_ok f hx] at hrun
  exact hf b u hrun

/-- What an operand must not have is checked and leaves the scope as it is. -/
theorem rejectUnknown {call : String} {ops : List Operand} {allowed : List String} {f : Unit → Lower β}
    {Q : β → Scope → Prop} (hf : Ensures (f ()) s Q) : Ensures (Operand.rejectUnknown call ops allowed >>= f) s Q := by
  unfold Operand.rejectUnknown
  split
  · exact .fail_bind
  · exact bind_of_ok rfl hf

end Ensures

end Lower

namespace Operand

variable {ops : List Operand} {o : Operand}

theorem mem_of_find? {name : String} (h : find? ops name = some o) : o ∈ ops := List.mem_of_find?_eq_some h

theorem mem_of_findAny? {names : List String} (h : findAny? ops names = some o) : o ∈ ops := by
  obtain ⟨name, -, hname⟩ := List.exists_of_findSome?_eq_some h
  exact mem_of_find? hname

theorem mem_of_sole? (h : sole? ops = some o) : o ∈ ops := by
  unfold sole? at h
  split at h
  · rw [Option.ite_none_right_eq_some] at h
    cases h.2
    exact List.mem_singleton_self o
  · cases h

/-- An operand found by name, or the only one, is an operand. -/
theorem mem_of_orElse {x : Option Operand} (hx : ∀ p ∈ x, p ∈ ops) (h : (x <|> sole? ops) = some o) : o ∈ ops := by
  rcases x with _ | p
  · exact mem_of_sole? h
  · cases h
    exact hx o rfl

end Operand

namespace Lower

variable {st : Statement} {p : Program} {s t u : Scope} {ls : List Lowered}

theorem program_cons_of_error {cause : Cause} (p : Program) (h : statement st s = (.error cause, t)) :
    (program (st :: p)).run s = (.error ⟨st, cause⟩, t) := by
  change (ExceptT.bindCont _ ((statement st s).1.mapError _) : StateM Scope _) (statement st s).2 = _
  rw [h]
  rfl

theorem program_cons_of_ok {l : Lowered} (p : Program) (h : statement st s = (.ok l, t)) :
    (program (st :: p)).run s = (((program p).run t).1.map (l :: ·), ((program p).run t).2) := by
  change (ExceptT.bindCont _ ((statement st s).1.mapError _) : StateM Scope _) (statement st s).2 = _
  rw [h]
  change (ExceptT.bindCont _ ((program p).run t).1 : StateM Scope _) ((program p).run t).2 = _
  rcases (program p).run t with ⟨e | ls, u⟩ <;> rfl

theorem program_cons_eq_ok (h : (program (st :: p)).run s = (.ok ls, u)) :
    ∃ l ls' t, statement st s = (.ok l, t) ∧ (program p).run t = (.ok ls', u) ∧ ls = l :: ls' := by
  rcases hst : statement st s with ⟨cause | l, t⟩
  · rw [program_cons_of_error p hst] at h
    cases h
  · rw [program_cons_of_ok p hst] at h
    rcases hp : (program p).run t with ⟨e | ls', u'⟩
    · rw [hp] at h
      cases h
    · rw [hp] at h
      cases h
      exact ⟨l, ls', t, rfl, hp, rfl⟩

theorem length_of_program (h : (program p).run s = (.ok ls, t)) : ls.length = p.length := by
  induction p generalizing s ls with
  | nil =>
    cases h
    rfl
  | cons st p ih =>
    obtain ⟨l, ls', u, -, hp, rfl⟩ := program_cons_eq_ok h
    rw [List.length_cons, List.length_cons, ih hp]

end Lower

theorem Module.ofProgram_eq_ok {options : Options} {p : Program} {m : Module}
    (h : (Module.ofProgram options p).1 = .ok m) :
    ∃ ls t, (Lower.program p).run (Scope.initial p) = (.ok ls, t) ∧ Module.assemble options p ls t = m := by
  unfold Module.ofProgram at h
  rcases hp : (Lower.program p).run (Scope.initial p) with ⟨e' | ls, t⟩
  · rw [hp] at h
    cases h
  · rw [hp] at h
    cases h
    exact ⟨ls, t, rfl, rfl⟩

end ChainCompiler
