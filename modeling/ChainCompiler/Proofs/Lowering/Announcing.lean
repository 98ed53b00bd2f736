import ChainCompiler.Proofs.Lowering.Names
import ChainCompiler.Proofs.Script.Starts

/-! Modules with announcements. An announcement is a line of its own, and no other line of a module can be mistaken for
one: code starts with a word, a bracket or a blank, and the two other comments start with a capital letter. So a module
with announcements is the module without them once these lines are taken out. -/

namespace ChainCompiler

open Script (Stmt IsIdentifier CleanAll)

namespace Module

open Script (lines textLines textLines_append)

def announcementLine (st : Statement) : List Char :=
  ("// " ++ st.keyword ++ " " ++ st.name ++ " (line " ++ st.line.repr ++ ")").toList

theorem lines_announcement (st : Statement) : (announcement st).lines 0 = [announcementLine st] := by
  simp only [announcement, announcementLine, Stmt.lines, String.toList_append, List.append_assoc]
  rfl

theorem announcementLine_eq (st : Statement) :
    ∃ c rest, announcementLine st = '/' :: '/' :: ' ' :: c :: rest ∧ (c = 'd' ∨ c = 'c' ∨ c = 's') := by
  simp only [announcementLine, String.toList_append, List.append_assoc]
  unfold Statement.keyword
  split
  · exact ⟨'d', _, rfl, .inl rfl⟩
  · exact ⟨'c', _, rfl, .inr (.inl rfl)⟩
  · exact ⟨'s', _, rfl, .inr (.inr rfl)⟩

theorem not_mem_announcementLine {st : Statement} (h : IsIdentifier st.name) : '\n' ∉ announcementLine st := by
  have hkeyword : '\n' ∉ st.keyword.toList := by
    unfold Statement.keyword
    split <;> decide
  have hname : '\n' ∉ st.name.toList := Script.not_mem_of_isIdentifier (by decide) h
  have hline : '\n' ∉ st.line.repr.toList := by
    rw [Nat.toList_repr]
    exact fun hmem => absurd (isFigure_of_mem_toDigits _ hmem) (by decide)
  simp only [announcementLine, String.toList_append, List.mem_append, not_or]
  exact ⟨⟨⟨⟨⟨⟨by decide, hkeyword⟩, by decide⟩, hname⟩, by decide⟩, hline⟩, by decide⟩

/-- A line that announces no statement. -/
def Quiet (l : List Char) : Prop := ∀ st, l ≠ announcementLine st

theorem quiet_of_head {l : List Char} (h : l.head? ≠ some '/') : Quiet l := by
  rintro st rfl
  obtain ⟨c, rest, heq, -⟩ := announcementLine_eq st
  rw [heq] at h
  exact h rfl

/-- A comment that starts with a capital letter. -/
theorem quiet_of_isUpper {c : Char} (hc : c.isUpper = true) (rest : List Char) :
    Quiet ('/' :: '/' :: ' ' :: c :: rest) := by
  intro st hst
  obtain ⟨d, rest', heq, hd⟩ := announcementLine_eq st
  rw [heq] at hst
  simp only [List.cons.injEq, true_and] at hst
  obtain ⟨rfl, -⟩ := hst
  rcases hd with rfl | rfl | rfl <;> exact absurd hc (by decide)

section Splitting

def announces (p : Program) (l : List Char) : Bool := decide (l ∈ p.map announcementLine)

/-- Lines, parted into the announcements of the statements `sts` and the others. -/
structure Splits (p : Program) (ls : List (List Char)) (sts : List Statement) (others : List (List Char)) : Prop where
  announced : ls.filter (announces p) = sts.map announcementLine
  left : ls.filter (fun l => !announces p l) = others

namespace Splits

variable {p : Program} {ls ls' others others' : List (List Char)} {sts sts' : List Statement}

theorem append (h : Splits p ls sts others) (h' : Splits p ls' sts' others') :
    Splits p (ls ++ ls') (sts ++ sts') (others ++ others') where
  announced := by rw [List.filter_append, h.announced, h'.announced, List.map_append]
  left := by rw [List.filter_append, h.left, h'.left]

theorem quiet (h : ∀ l ∈ ls, Quiet l) : Splits p ls [] ls := by
  have hfalse : ∀ l ∈ ls, announces p l = false := by
    intro l hl
    refine decide_eq_false fun hmem => ?_
    obtain ⟨st, -, hst⟩ := List.mem_map.1 hmem
    exact h l hl st hst.symm
  refine ⟨List.filter_eq_nil_iff.2 fun l hl => ?_, List.filter_eq_self.2 fun l hl => ?_⟩
  · simp [hfalse l hl]
  · simp [hfalse l hl]

theorem announcement {st : Statement} (h : st ∈ p) : Splits p [announcementLine st] [st] [] := by
  have htrue : announces p (announcementLine st) = true := decide_eq_true (List.mem_map_of_mem h)
  exact ⟨by simp [htrue], by simp [htrue]⟩

end Splits

end Splitting

section Definitions

variable {p : Program}

theorem textLines_announcement {st : Statement} (h : IsIdentifier st.name) :
    textLines [announcement st] = [announcementLine st] := by
  simp only [textLines, Script.linesOf, lines_announcement, List.append_nil, List.flatMap_singleton]
  exact Script.lines_of_not_mem (not_mem_announcementLine h)

theorem splits_steady {ss : List Stmt} (h : ∀ s ∈ ss, s.Steady 0) : Splits p (textLines ss) [] (textLines ss) :=
  .quiet fun _ hl => quiet_of_head (Script.head?_of_mem_textLines h hl)

theorem splits_block {x : Statement × Lowered} (hx : x.1 ∈ p) (hname : IsIdentifier x.1.name)
    (h : ∀ d ∈ x.2.definitions, d.Steady 0) :
    Splits p (textLines (block true x)) [x.1] (textLines (block false x)) := by
  have hblock : textLines (block true x) = [announcementLine x.1] ++ textLines x.2.definitions := by
    rw [← textLines_announcement hname]
    exact textLines_append _ _
  rw [hblock]
  exact (Splits.announcement hx).append (splits_steady h)

/-- The blocks of the definitions with announcements and without. -/
theorem splits_separated {xs : List (Statement × Lowered)}
    (h : ∀ x ∈ xs, x.1 ∈ p ∧ IsIdentifier x.1.name ∧ ∀ d ∈ x.2.definitions, d.Steady 0) :
    Splits p (textLines (separated (xs.map (block true)))) (xs.map Prod.fst)
      (textLines (separated (xs.map (block false)))) := by
  induction xs with
  | nil => exact .quiet (by simp [separated])
  | cons x xs ih =>
    obtain ⟨⟨hx, hname, hdefinitions⟩, hxs⟩ := List.forall_mem_cons.1 h
    have hblock := splits_block hx hname hdefinitions
    cases xs with
    | nil => exact hblock
    | cons y ys =>
      have hblank : Splits p (textLines [.blank]) [] (textLines [.blank]) :=
        splits_steady (List.forall_mem_singleton.2 Script.steady_blank)
      have hall := hblock.append (hblank.append (ih hxs))
      rw [← textLines_append, ← textLines_append, ← textLines_append, ← textLines_append] at hall
      exact hall

end Definitions

section Sections

def sectionLines (ss : List Stmt) : List (List Char) := if ss.isEmpty then [] else [] :: textLines ss

theorem lines_sectionText_append (ss : List Stmt) (rest : List Char) :
    lines ((sectionText ss).toList ++ rest) = sectionLines ss ++ lines rest := by
  unfold sectionText sectionLines
  split
  · rfl
  · next hne =>
    have hbreaks : ("\n" ++ Script.text ss ++ "\n").toList ++ rest =
        '\n' :: ((Script.text ss).toList ++ '\n' :: rest) := by
      rw [String.toList_append, String.toList_append, List.append_assoc, List.append_assoc]
      rfl
    rw [hbreaks, Script.lines_break, Script.lines_append_break, Script.lines_text (by simpa using hne)]
    rfl

theorem lines_importLine_append (options : Options) (classes : List String) (rest : List Char) :
    lines ((importLine options classes).toList ++ rest) = textLines (imports options classes) ++ lines rest := by
  unfold importLine imports
  split
  · rfl
  · have hbreak : ∀ s : String, (s ++ "\n").toList ++ rest = s.toList ++ '\n' :: rest := by
      intro s
      rw [String.toList_append, List.append_assoc]
      rfl
    rw [hbreak, Script.lines_append_break, Script.lines_text (List.cons_ne_nil _ _)]

theorem lines_text {options : Options} {name : String} (hname : '\n' ∉ name.toList) (m : Module) :
    lines (m.text options name).toList = headerLine name :: (textLines (imports options m.classes) ++
      (sectionLines m.definitions ++ (sectionLines m.contexts ++ (sectionLines m.helpers ++ [[]])))) := by
  rw [text_eq_append, bodyText, String.toList_append, toList_header, List.append_assoc, List.singleton_append,
    Script.lines_append_break, Script.lines_of_not_mem (not_mem_headerLine hname)]
  simp only [String.toList_append, List.append_assoc]
  rw [lines_importLine_append, lines_sectionText_append, lines_sectionText_append,
    ← List.append_nil (sectionText m.helpers).toList, lines_sectionText_append]
  rfl

theorem quiet_sectionLines {ss : List Stmt} (h : ∀ l ∈ textLines ss, Quiet l) : ∀ l ∈ sectionLines ss, Quiet l := by
  unfold sectionLines
  split
  · simp
  · exact List.forall_mem_cons.2 ⟨quiet_of_head (by decide), h⟩

end Sections

section Contexts

variable {tools : List String} {chains : List ChainEntry}

theorem isEntry_registry : ∀ d ∈ registry tools, d.IsEntry := by
  intro d hd
  unfold registry at hd
  split at hd
  · cases hd
  simp only [List.mem_append, List.mem_cons, List.not_mem_nil, or_false, List.mem_map] at hd
  rcases hd with ((rfl | rfl) | ⟨t, -, rfl⟩) | rfl
  · exact .const _ _
  · exact .const _ _
  · exact .expr _
  · exact .expr _

theorem isEntry_memoryContext {chain : String} {memory : Script.Expr} :
    ∀ d ∈ memoryContext tools chain memory, d.IsEntry := by
  intro d hd
  unfold memoryContext at hd
  simp only [List.mem_append, List.mem_cons, List.not_mem_nil, or_false] at hd
  rcases hd with (rfl | rfl) | hd
  · exact .const _ _
  · exact .expr _
  · split at hd
    · cases hd
    · cases List.mem_singleton.1 hd
      exact .expr _

theorem isEntry_contextsOf : ∀ d ∈ contextsOf tools chains, d.IsEntry := by
  intro d hd
  by_cases hblank : d = .blank
  · rw [hblank]
    exact .blank
  · rcases (mem_contextsOf hblank).1 hd with hd | ⟨c, -, memory, -, hd⟩
    · exact isEntry_registry d hd
    · exact isEntry_memoryContext d hd

end Contexts

section Helpers

variable {invokeMethod chain : String} {context : List Script.Expr}

/-- The lines of a function that runs a chain are steady, whatever the method that runs it is called. -/
theorem steady_helper (hinvoke : '\n' ∉ invokeMethod.toList) (hchain : IsIdentifier chain)
    (hcontext : CleanAll context) : (helper invokeMethod chain context).Steady 0 := by
  have hword : '\n' ∉ chain.toList := Script.not_mem_of_isIdentifier (by decide) hchain
  have hname : '\n' ∉ ("run_" ++ chain).toList := by
    rw [String.toList_append]
    exact List.not_mem_append (by decide) hword
  have hinput : CleanAll (.ident "input" :: context) := .ident (by decide) hcontext
  have hcall : ∀ n ∈ (Script.Expr.await ((Script.Expr.ident chain).method invokeMethod (.ident "input" :: context))).nodes,
      n.Avoids '\n' := by
    simp only [Script.Expr.method, Script.Expr.nodes, List.mem_cons, List.mem_append, List.not_mem_nil, or_false]
    rintro n (rfl | rfl | (rfl | rfl) | hn) name hmem
    · cases hmem
    · cases hmem
    · cases hmem
      exact hinvoke
    · cases hmem
      exact hword
    · exact Script.not_mem_of_isIdentifier (by decide) ((hinput n hn).isIdentifier name hmem)
  refine Script.steady_function hname (by decide) fun d hd => ?_
  simp only [List.mem_cons, List.not_mem_nil, or_false] at hd
  rcases hd with rfl | rfl | rfl
  · exact Script.steady_const (by decide) hcall
  · exact Script.steady_expr (by decide) (by decide)
  · exact Script.steady_result (by decide)

theorem quiet_helpersOf (hinvoke : '\n' ∉ invokeMethod.toList) {tools : List String} {chains : List ChainEntry}
    (hchains : ∀ c ∈ chains, IsIdentifier c.name) :
    ∀ l ∈ textLines (helpersOf invokeMethod tools chains), Quiet l := by
  unfold helpersOf
  split
  · simp
  · rw [← List.singleton_append, textLines_append]
    refine List.forall_mem_append.2 ⟨fun l hl => ?_, fun l hl => quiet_of_head (Script.head?_of_mem_textLines ?_ hl)⟩
    · have hcomment : textLines [.comment "Execution helpers"] = ["// Execution helpers".toList] := by decide
      rw [hcomment] at hl
      cases List.mem_singleton.1 hl
      exact quiet_of_isUpper (by decide) _
    · refine forall_separated Script.steady_blank fun b hb d hd => ?_
      obtain ⟨c, hc, rfl⟩ := List.mem_map.1 hb
      cases List.mem_singleton.1 hd
      exact steady_helper hinvoke (hchains c hc) (cleanAll_contextOf (hchains c hc))

end Helpers

section Assembled

variable {p : Program} {ls : List Lowered} {t : Scope} (hrun : (Lower.program p).run (Scope.initial p) = (.ok ls, t))
include hrun

theorem definitionsOf_ne_nil (debug : Bool) (hp : p ≠ []) : definitionsOf debug p ls ≠ [] := by
  intro hnil
  have hbinds := Lower.binds_of_program debug hrun
  rw [hnil] at hbinds
  exact hp (List.map_eq_nil_iff.1 hbinds.symm)

variable (hp : ∀ st ∈ p, IsIdentifier st.name ∧ ∀ l ∈ st.leaves, l.Plain)
include hp

theorem splits_definitionsOf :
    Splits p (sectionLines (definitionsOf true p ls)) p (sectionLines (definitionsOf false p ls)) := by
  have hemitted := Lower.program_emits (fun st hst => (hp st hst).1) (fun st hst => (hp st hst).2) hrun
  have hnamed := Lower.named_of_program (fun st hst => (hp st hst).1) (fun st hst => (hp st hst).2) hrun
  by_cases hnil : p = []
  · subst hnil
    exact .quiet (by simp [definitionsOf, separated, sectionLines])
  have hsection : ∀ debug, sectionLines (definitionsOf debug p ls) =
      [[]] ++ textLines (separated ((p.zip ls).map (block debug))) := by
    intro debug
    exact if_neg (by simpa using definitionsOf_ne_nil hrun debug hnil)
  have hblocks : ∀ x ∈ p.zip ls, x.1 ∈ p ∧ IsIdentifier x.1.name ∧ ∀ d ∈ x.2.definitions, d.Steady 0 := by
    intro x hx
    obtain ⟨hst, hl⟩ := List.of_mem_zip hx
    refine ⟨hst, (hp x.1 hst).1, fun d hd => ?_⟩
    refine (clean_definitions hemitted.clean hnamed hl d hd).steady ?_
    rcases (hnamed x.2 hl).definitions d hd with ⟨n, v, rfl, -⟩ | ⟨v, rfl⟩
    · exact .const n v
    · exact .expr v
  have hsplits := splits_separated hblocks
  rw [List.map_fst_zip (Lower.length_of_program hrun).ge] at hsplits
  rw [hsection, hsection]
  have hempty : ∀ l ∈ [([] : List Char)], Quiet l := List.forall_mem_singleton.2 (quiet_of_head (by decide))
  exact (Splits.quiet hempty).append hsplits

/-- The lines of a module with announcements are these and the lines of the module without them. -/
theorem splits_text {name invokeMethod : String} (hname : '\n' ∉ name.toList) (hinvoke : '\n' ∉ invokeMethod.toList)
    (runtime : String) :
    Splits p (lines ((assemble ⟨runtime, invokeMethod, true⟩ p ls t).text ⟨runtime, invokeMethod, true⟩ name).toList) p
      (lines ((assemble ⟨runtime, invokeMethod, false⟩ p ls t).text ⟨runtime, invokeMethod, false⟩ name).toList) := by
  have hemitted := Lower.program_emits (fun st hst => (hp st hst).1) (fun st hst => (hp st hst).2) hrun
  have hnamed := Lower.named_of_program (fun st hst => (hp st hst).1) (fun st hst => (hp st hst).2) hrun
  have hchains : ∀ c ∈ ls.filterMap (·.chain), IsIdentifier c.name ∧ ∀ memory ∈ c.memory, CleanAll [memory] :=
    fun _ => clean_chains hemitted.clean hnamed
  have hheader : ∀ l ∈ [headerLine name], Quiet l := List.forall_mem_singleton.2 (quiet_of_isUpper (by decide) _)
  have himports : ∀ s ∈ imports ⟨runtime, invokeMethod, true⟩ (classesOf t), s.Steady 0 := by
    unfold imports
    split
    · simp
    · refine List.forall_mem_singleton.2 (Script.steady_imports (fun c hc => ?_) _)
      exact Script.not_mem_of_isIdentifier (by decide) (isIdentifier_of_mem_classesOf hemitted c hc)
  have hcontexts : ∀ d ∈ contextsOf t.tools (ls.filterMap (·.chain)), d.Steady 0 := fun d hd =>
    (clean_contextsOf (isIdentifier_of_mem_tools hemitted) hchains d hd).steady (isEntry_contextsOf d hd)
  have hback : ∀ l ∈ sectionLines (contextsOf t.tools (ls.filterMap (·.chain))) ++
      (sectionLines (helpersOf invokeMethod t.tools (ls.filterMap (·.chain))) ++ [[]]), Quiet l := by
    refine List.forall_mem_append.2 ⟨?_, List.forall_mem_append.2 ⟨?_, ?_⟩⟩
    · exact quiet_sectionLines fun l hl => quiet_of_head (Script.head?_of_mem_textLines hcontexts hl)
    · exact quiet_sectionLines (quiet_helpersOf hinvoke fun c hc => (hchains c hc).1)
    · exact List.forall_mem_singleton.2 (quiet_of_head (by decide))
  have hmiddle := (splits_definitionsOf hrun hp).append (.quiet hback)
  rw [List.append_nil] at hmiddle
  rw [lines_text hname, lines_text hname]
  exact (Splits.quiet hheader).append ((splits_steady himports).append hmiddle)

end Assembled

end Module

/-- Announcements are all that they add. For a program from a source, a module is made with announcements if and only if
it is made without them, with the same warnings and the same error. Of the lines of the text with announcements, those
that announce a statement are one for each statement, in their order, and the others make up the text without. -/
theorem generate_announced {source : String} {p : Program} (hp : Program.ofSource source = .ok p)
    {name invokeMethod : String} (hname : '\n' ∉ name.toList) (hinvoke : '\n' ∉ invokeMethod.toList) (runtime : String) :
    (generate ⟨runtime, invokeMethod, true⟩ name p).2 = (generate ⟨runtime, invokeMethod, false⟩ name p).2 ∧
      ((∃ e, (generate ⟨runtime, invokeMethod, true⟩ name p).1 = .error e ∧
          (generate ⟨runtime, invokeMethod, false⟩ name p).1 = .error e) ∨
        ∃ code plain, (generate ⟨runtime, invokeMethod, true⟩ name p).1 = .ok code ∧
          (generate ⟨runtime, invokeMethod, false⟩ name p).1 = .ok plain ∧
          (Script.lines code.toList).filter (· ∈ p.map Module.announcementLine) = p.map Module.announcementLine ∧
          Script.joined "\n" ((Script.lines code.toList).filter (· ∉ p.map Module.announcementLine)) = plain.toList) := by
  rcases hrun : (Lower.program p).run (Scope.initial p) with ⟨e | ls, t⟩
  · have hgenerate : ∀ debug, generate ⟨runtime, invokeMethod, debug⟩ name p = (.error e, t.warnings) := by
      intro debug
      simp only [generate, Module.ofProgram, hrun]
      rfl
    rw [hgenerate, hgenerate]
    exact ⟨rfl, .inl ⟨e, rfl, rfl⟩⟩
  · have hgenerate : ∀ debug, generate ⟨runtime, invokeMethod, debug⟩ name p =
        (.ok ((Module.assemble ⟨runtime, invokeMethod, debug⟩ p ls t).text ⟨runtime, invokeMethod, debug⟩ name),
          t.warnings) := by
      intro debug
      simp only [generate, Module.ofProgram, hrun]
      rfl
    have hsplits := Module.splits_text hrun (Program.plain_of_ofSource hp) hname hinvoke runtime
    rw [hgenerate, hgenerate]
    refine ⟨rfl, .inr ⟨_, _, rfl, rfl, hsplits.announced, ?_⟩⟩
    have hleft := congrArg (Script.joined "\n") hsplits.left
    rw [Script.joined_lines] at hleft
    simpa only [Module.announces, decide_not] using hleft

def echoSource : String := "def x = \"\\n// def x (line 1)\\n\"\nchain c = x"

def echoProgram : Program :=
  [⟨"x", 1, .definition (.string "\n// def x (line 1)\n")⟩, ⟨"c", 2, .chain [.identifier "x"] none⟩]

def echoTokens : List Token :=
  [⟨.keyword .defKw, "def", ⟨1, 1⟩⟩, ⟨.identifier, "x", ⟨1, 5⟩⟩, ⟨.mark .assign, "=", ⟨1, 7⟩⟩,
    ⟨.string, "\"\\n// def x (line 1)\\n\"", ⟨1, 9⟩⟩, ⟨.newline, "\n", ⟨1, 32⟩⟩, ⟨.keyword .chainKw, "chain", ⟨2, 1⟩⟩,
    ⟨.identifier, "c", ⟨2, 7⟩⟩, ⟨.mark .assign, "=", ⟨2, 9⟩⟩, ⟨.identifier, "x", ⟨2, 11⟩⟩, ⟨.eof, "", ⟨2, 12⟩⟩]

theorem generate_announced_echoSource :
    Program.ofSource echoSource = .ok echoProgram ∧ ∃ code plain,
      (generate ⟨"r", "run", true⟩ "s" echoProgram).1 = .ok code ∧
      (generate ⟨"r", "run", false⟩ "s" echoProgram).1 = .ok plain ∧
      (Script.lines code.toList).filter (· ∈ echoProgram.map Module.announcementLine) =
        ["// def x (line 1)".toList, "// chain c (line 2)".toList] ∧
      Script.joined "\n" ((Script.lines code.toList).filter (· ∉ echoProgram.map Module.announcementLine)) =
        plain.toList := by
  have htokens : Token.tokenize echoSource = .ok echoTokens := rfl
  have hsource : Program.ofSource echoSource = .ok echoProgram := (Program.ofSource_of_tokenize htokens).trans rfl
  have hlines : echoProgram.map Module.announcementLine = ["// def x (line 1)".toList, "// chain c (line 2)".toList] := by
    decide
  have hcode : ∃ code, (generate ⟨"r", "run", true⟩ "s" echoProgram).1 = .ok code := ⟨_, rfl⟩
  obtain ⟨code, hcode⟩ := hcode
  obtain ⟨-, ⟨e, herror, -⟩ | ⟨code', plain, hcode', hplain, hannounced, hleft⟩⟩ :=
    generate_announced hsource (show '\n' ∉ "s".toList by decide) (show '\n' ∉ "run".toList by decide) "r"
  · cases hcode.symm.trans herror
  · exact ⟨hsource, code', plain, hcode', hplain, hannounced.trans hlines, hleft⟩

end ChainCompiler
