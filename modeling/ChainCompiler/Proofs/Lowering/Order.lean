import ChainCompiler.Proofs.Data
import ChainCompiler.Proofs.Lowering.Chains
import ChainCompiler.Proofs.Lowering.Mentions

/-! The order of uses and declarations. The definitions of a module stand in the order of the statements, and a constant
has no value before its declaration. Whether a module uses a name too early can be read off the program. -/

namespace ChainCompiler

open Script (Stmt Mentions)

namespace Script

def Declares (n : String) (ss : List Stmt) : Prop := ∃ v, .const n v ∈ ss

/-- The name is used after its declaration only: in front of each statement that mentions it there is a constant of that
name. The value of a constant is in front of its own declaration. -/
def UsedAfter (n : String) (ss : List Stmt) : Prop :=
  ∀ front s back, ss = front ++ s :: back → Mentions n s.exprs → Declares n front

variable {n : String}

@[simp] theorem not_declares_nil : ¬Declares n [] := by simp [Declares]

@[simp] theorem declares_cons {s : Stmt} {ss : List Stmt} :
    Declares n (s :: ss) ↔ (∃ v, s = .const n v) ∨ Declares n ss := by
  simp only [Declares, List.mem_cons, exists_or, eq_comm]

@[simp] theorem usedAfter_nil : UsedAfter n [] := by
  intro front s back h
  simp at h

@[simp] theorem usedAfter_cons {s : Stmt} {ss : List Stmt} :
    UsedAfter n (s :: ss) ↔ ¬Mentions n s.exprs ∧ ((∃ v, s = .const n v) ∨ UsedAfter n ss) := by
  constructor
  · intro h
    refine ⟨fun hs => not_declares_nil (h [] s ss rfl hs), or_iff_not_imp_left.2 fun hconst front x back hss hx => ?_⟩
    exact (declares_cons.1 (h (s :: front) x back (congrArg (s :: ·) hss) hx)).resolve_left hconst
  · rintro ⟨hs, hrest⟩ front x back hss hx
    cases front with
    | nil =>
      cases hss
      exact absurd hx hs
    | cons y front =>
      cases hss
      exact declares_cons.2 (hrest.imp_right fun hss => hss front x back rfl hx)

/-- A list of statements in two parts: the second one may use the name freely where the first one declares it. -/
theorem usedAfter_append {xs ys : List Stmt} :
    UsedAfter n (xs ++ ys) ↔ UsedAfter n xs ∧ (Declares n xs ∨ UsedAfter n ys) := by
  induction xs with
  | nil => simp
  | cons x xs ih =>
    rw [List.cons_append, usedAfter_cons, usedAfter_cons, declares_cons, ih, or_and_left, and_assoc, or_assoc]

theorem not_declares_calls (es : List Expr) : ¬Declares n (es.map .expr) := by simp [Declares]

theorem usedAfter_calls {es : List Expr} : UsedAfter n (es.map .expr) ↔ ¬Mentions n es := by
  induction es with
  | nil => simp
  | cons e es ih =>
    rw [List.map_cons, usedAfter_cons, mentions_cons, ih, Stmt.exprs]
    simp

/-- Blank lines between blocks make no difference. -/
theorem usedAfter_separated {b : List Stmt} {bs : List (List Stmt)} :
    UsedAfter n (Module.separated (b :: bs)) ↔ UsedAfter n b ∧ (Declares n b ∨ UsedAfter n (Module.separated bs)) := by
  cases bs with
  | nil => simp [Module.separated]
  | cons b' bs =>
    rw [Module.separated, usedAfter_append, usedAfter_cons]
    · simp [Stmt.exprs]
    · simp

/-- Apart from the name they are made on, calls mention what their arguments mention. -/
theorem mentions_calls {α : Type} {name : String} (hname : name ≠ n) (xs : List α) (f : α → String) (g : α → Expr) :
    Mentions n (xs.map fun x => (Expr.ident name).method (f x) [g x]) ↔ Mentions n (xs.map g) := by
  rw [mentions_map, mentions_map]
  simp [hname.symm]

end Script

open Script (Declares UsedAfter declares_cons usedAfter_cons)

def Statement.initialNames (st : Statement) : List String :=
  match st.declaration with
  | .definition value => value.flatten.1.names
  | .chain .. => []
  | .schema _ => []

/-- The names in the calls on a statement's constant: the modifiers of a definition, and the steps of a chain. -/
def Statement.laterNames (st : Statement) : List String :=
  match st.declaration with
  | .definition value => value.flatten.2.flatMap Call.names
  | .chain steps _ => itemNames steps
  | .schema _ => []

/-- No statement has the name before the first one that declares it, and that one does not start from it. -/
def Program.DeclaresFirst (n : String) : Program → Prop
  | [] => True
  | st :: p => n ∉ st.initialNames ∧ (st.name = n ∨ n ∉ st.laterNames ∧ DeclaresFirst n p)

instance Program.decidableDeclaresFirst (n : String) : (p : Program) → Decidable (p.DeclaresFirst n)
  | [] => .isTrue trivial
  | _ :: p => have := decidableDeclaresFirst n p; inferInstanceAs (Decidable (_ ∧ (_ ∨ _ ∧ _)))

namespace Lower

variable {n : String} (hn : isEndpoint n = false) {st : Statement} {p : Program} {s t : Scope} {l : Lowered}
  {ls : List Lowered}
include hn

/-- A statement becomes a constant and calls on it, with the names of the statement. -/
theorem exists_calls_of_statement (hst : WellFormed.Statement st) (h : statement st s = (.ok l, t)) :
    ∃ base calls, l.definitions = .const st.name base :: calls.map .expr ∧
      (Mentions n [base] ↔ n ∈ st.initialNames) ∧ (st.name ≠ n → (Mentions n calls ↔ n ∈ st.laterNames)) := by
  have hdeclaration := hst.2
  unfold Statement.initialNames Statement.laterNames
  cases hdecl : st.declaration with
  | definition value =>
    rw [hdecl] at hdeclaration
    obtain ⟨b, hb, rfl⟩ := definitionValue_of_statement hdecl h
    obtain ⟨hbase, hattachments⟩ := (naming_of_step hn hdeclaration).definitionValue hn hb
    refine ⟨b.base, b.attachments.map fun a => (Script.Expr.ident st.name).method a.1 [a.2], ?_, hbase, fun hname => ?_⟩
    · rw [List.map_map]
      rfl
    · rw [Script.mentions_calls hname, hattachments, List.mem_flatMap]
  | chain steps context =>
    rw [hdecl] at hdeclaration
    obtain ⟨⟨_, hsteps⟩, -⟩ := hdeclaration
    obtain ⟨es, config, u, hes, -, rfl⟩ := chain_of_statement hdecl h
    refine ⟨.new "Chain" [.str st.name], es.map fun e => (Script.Expr.ident st.name).method "addNode" [e], ?_, ?_,
      fun hname => ?_⟩
    · rw [List.map_map]
      rfl
    · simp
    · rw [Script.mentions_calls hname, List.map_id']
      exact mentions_of_steps hn (fun e he => naming_of_step hn (hsteps e he)) hes
  | schema fields =>
    rw [(statement_schema hdecl h).1]
    exact ⟨_, [], rfl, by simp [not_mentions_schemaOf], by simp⟩

/-- One statement: its block declares its name, and uses another one or starts from its own as the statement does. -/
theorem usedAfter_block (debug : Bool) (hst : WellFormed.Statement st) (h : statement st s = (.ok l, t)) :
    (Declares n (Module.block debug (st, l)) ↔ st.name = n) ∧
      (UsedAfter n (Module.block debug (st, l)) ↔ n ∉ st.initialNames ∧ (st.name = n ∨ n ∉ st.laterNames)) := by
  obtain ⟨base, calls, hdefinitions, hbase, hcalls⟩ := exists_calls_of_statement hn hst h
  have hblock : (Declares n (Module.block debug (st, l)) ↔ Declares n l.definitions) ∧
      (UsedAfter n (Module.block debug (st, l)) ↔ UsedAfter n l.definitions) := by
    cases debug with
    | false => exact ⟨.rfl, .rfl⟩
    | true => simp [Module.block, Module.announcement, Stmt.exprs]
  have hconst : (∃ v, Stmt.const st.name base = .const n v) ↔ st.name = n := by simp
  rw [hblock.1, hblock.2, hdefinitions, declares_cons, usedAfter_cons, hconst, Script.usedAfter_calls, Stmt.exprs, hbase,
    or_iff_left (Script.not_declares_calls calls)]
  refine ⟨.rfl, and_congr_right' ?_⟩
  rcases eq_or_ne st.name n with hname | hname
  · simp [hname]
  · rw [hcalls hname]

/-- All statements: the name is used after its declaration in the definitions as it is in the program. -/
theorem usedAfter_of_program (debug : Bool) (hp : ∀ st ∈ p, WellFormed.Statement st)
    (h : (program p).run s = (.ok ls, t)) :
    UsedAfter n (Module.definitionsOf debug p ls) ↔ p.DeclaresFirst n := by
  change UsedAfter n (Module.separated ((p.zip ls).map (Module.block debug))) ↔ _
  induction p generalizing s ls with
  | nil => simp [Module.separated, Program.DeclaresFirst]
  | cons st p ih =>
    obtain ⟨l, ls', u, hst, hrest, rfl⟩ := program_cons_eq_ok h
    obtain ⟨hfirst, hp⟩ := List.forall_mem_cons.1 hp
    obtain ⟨hdeclares, hused⟩ := usedAfter_block hn debug hfirst hst
    rw [List.zip_cons_cons, List.map_cons, Script.usedAfter_separated, hdeclares, hused, ih hp hrest,
      Program.DeclaresFirst, and_assoc, ← or_and_left]

end Lower

/-- When a module is free of uses before declaration. In the definitions of a module from a source, the name of a
statement is used after its declaration only, exactly where no statement of the source has the name before the first one
that declares it, and that one does not start from it. -/
theorem usedAfter_iff_declaresFirst {source : String} {p : Program} (hp : Program.ofSource source = .ok p)
    {options : Options} {name code : String} (h : (generate options name p).1 = .ok code) :
    ∃ m, (Module.ofProgram options p).1 = .ok m ∧ code = m.text options name ∧
      ∀ st ∈ p, (UsedAfter st.name m.definitions ↔ p.DeclaresFirst st.name) := by
  obtain ⟨m, hm, hcode⟩ := generate_eq_ok h
  obtain ⟨ls, t, hrun, rfl⟩ := Module.ofProgram_eq_ok hm
  obtain ⟨ts, hsentences, hts⟩ := Program.sentences_of_ofSource hp
  have hwellFormed := Grammar.wellFormed_of_sentences hsentences hts
  refine ⟨_, hm, hcode, fun st hst => ?_⟩
  exact Lower.usedAfter_of_program (isEndpoint_of_isFreeName (hwellFormed st hst).1) options.debug hwellFormed hrun

/-- A definition with its own name among its tools, which it has when it binds them. -/
def selfBoundSource : String := "def a = Model() @ bind(tools=[a])\nchain c = a"

def selfBoundProgram : Program :=
  [⟨"a", 1, .definition
      (.bind (.call ⟨"Model", [], none⟩) ⟨"bind", [⟨some "tools", .list [.identifier "a"]⟩], none⟩)⟩,
    ⟨"c", 2, .chain [.identifier "a"] none⟩]

def selfBoundTokens : List Token :=
  [⟨.keyword .defKw, "def", ⟨1, 1⟩⟩, ⟨.identifier, "a", ⟨1, 5⟩⟩, ⟨.mark .assign, "=", ⟨1, 7⟩⟩,
    ⟨.keyword .model, "Model", ⟨1, 9⟩⟩, ⟨.mark .lparen, "(", ⟨1, 14⟩⟩, ⟨.mark .rparen, ")", ⟨1, 15⟩⟩,
    ⟨.mark .bind, "@", ⟨1, 17⟩⟩, ⟨.identifier, "bind", ⟨1, 19⟩⟩, ⟨.mark .lparen, "(", ⟨1, 23⟩⟩,
    ⟨.identifier, "tools", ⟨1, 24⟩⟩, ⟨.mark .assign, "=", ⟨1, 29⟩⟩, ⟨.mark .lbracket, "[", ⟨1, 30⟩⟩,
    ⟨.identifier, "a", ⟨1, 31⟩⟩, ⟨.mark .rbracket, "]", ⟨1, 32⟩⟩, ⟨.mark .rparen, ")", ⟨1, 33⟩⟩,
    ⟨.newline, "\n", ⟨1, 34⟩⟩, ⟨.keyword .chainKw, "chain", ⟨2, 1⟩⟩, ⟨.identifier, "c", ⟨2, 7⟩⟩,
    ⟨.mark .assign, "=", ⟨2, 9⟩⟩, ⟨.identifier, "a", ⟨2, 11⟩⟩, ⟨.eof, "", ⟨2, 12⟩⟩]

theorem usedAfter_iff_declaresFirst_selfBound :
    Program.ofSource selfBoundSource = .ok selfBoundProgram ∧
      ∃ m, (Module.ofProgram .standard selfBoundProgram).1 = .ok m ∧ UsedAfter "a" m.definitions := by
  have htokens : Token.tokenize selfBoundSource = .ok selfBoundTokens := rfl
  have hsource : Program.ofSource selfBoundSource = .ok selfBoundProgram := (Program.ofSource_of_tokenize htokens).trans rfl
  have h : (generate .standard "s" selfBoundProgram).1 = .ok _ := rfl
  obtain ⟨m, hm, -, hused⟩ := usedAfter_iff_declaresFirst hsource h
  exact ⟨hsource, m, hm, (hused _ (.head _)).2 (by decide)⟩

def forwardSource : String := "chain c = m\ndef m = Model()"

def forwardProgram : Program :=
  [⟨"c", 1, .chain [.identifier "m"] none⟩, ⟨"m", 2, .definition (.call ⟨"Model", [], none⟩)⟩]

def forwardTokens : List Token :=
  [⟨.keyword .chainKw, "chain", ⟨1, 1⟩⟩, ⟨.identifier, "c", ⟨1, 7⟩⟩, ⟨.mark .assign, "=", ⟨1, 9⟩⟩,
    ⟨.identifier, "m", ⟨1, 11⟩⟩, ⟨.newline, "\n", ⟨1, 12⟩⟩, ⟨.keyword .defKw, "def", ⟨2, 1⟩⟩,
    ⟨.identifier, "m", ⟨2, 5⟩⟩, ⟨.mark .assign, "=", ⟨2, 7⟩⟩, ⟨.keyword .model, "Model", ⟨2, 9⟩⟩,
    ⟨.mark .lparen, "(", ⟨2, 14⟩⟩, ⟨.mark .rparen, ")", ⟨2, 15⟩⟩, ⟨.eof, "", ⟨2, 16⟩⟩]

/-- A name that is declared later gives no warning, and is used before its declaration. -/
theorem used_before_forward :
    Program.ofSource forwardSource = .ok forwardProgram ∧
      ∃ m, Module.ofProgram .standard forwardProgram = (.ok m, []) ∧
        ∃ st ∈ forwardProgram, ¬UsedAfter st.name m.definitions := by
  have htokens : Token.tokenize forwardSource = .ok forwardTokens := rfl
  refine ⟨(Program.ofSource_of_tokenize htokens).trans rfl, _, rfl, _, .tail _ (.head _), fun h => ?_⟩
  obtain ⟨v, hv⟩ := h [.const "c" (.new "Chain" [.str "c"])]
    (.expr ((Script.Expr.ident "c").method "addNode" [.ident "m"])) _ rfl (by simp [Stmt.exprs])
  simp at hv

end ChainCompiler
