import ChainCompiler.Proofs.Lowering.Contribution
import ChainCompiler.Proofs.Lowering.Imports
import ChainCompiler.Proofs.Script.Rendering
import ChainCompiler.Proofs.Unsigned
import ChainCompiler.Proofs.WellFormed

/-! No text of a source gets into a module but through the quoter. The names in a source are identifiers and its numbers
have no sign, lowering emits no names and numbers but these and its own, and the text of such a module is sealed. -/

namespace ChainCompiler

open Script (IsIdentifier Harmless CleanAll cleanAll_nil cleanAll_append cleanAll_cons cleanAll_of_perm Stmt)

/-- A leaf that can stand in a script as it is: an identifier, a number without a sign, or what is quoted. -/
def Expr.Plain : Expr → Prop
  | .identifier name => IsIdentifier name
  | .number v => v.Unsigned
  | _ => True

theorem Grammar.plain_of_atom {t : Token} {e : Expr} (ha : Atom t e) (ht : t.Lexical) : e.Plain := by
  cases ha with
  | identifier hk _ _ => exact (ht.isFreeName hk).1
  | @component k hk _ =>
    have htext : t.text = k.spelling := ht.spelling hk
    rw [Expr.Plain, htext]
    cases k <;> decide
  | number hk hv => exact Double.unsigned_of_read? (by simpa only [Token.Lexical, hk] using ht) hv
  | _ => trivial

/-- The names and the leaves of a program from a source are plain. -/
theorem Program.plain_of_ofSource {source : String} {p : Program} (h : ofSource source = .ok p) :
    ∀ st ∈ p, IsIdentifier st.name ∧ ∀ l ∈ st.leaves, l.Plain := by
  obtain ⟨ts, hsentences, hlexical⟩ := sentences_of_ofSource h
  intro st hst
  refine ⟨(Grammar.wellFormed_of_sentences hsentences hlexical st hst).1.1, fun l hl => ?_⟩
  obtain ⟨t, ht, hatom⟩ := Grammar.covers_of_sentences hsentences st hst l hl
  exact Grammar.plain_of_atom hatom (hlexical t ht)

namespace Emitted

variable {P : Expr → Prop} {s t : Scope} {es : List Script.Expr}

/-- The tools registered while code is emitted are leaves of the program. -/
theorem mem_tools (h : Emitted P s es t) {tool : String} : tool ∈ t.tools → tool ∈ s.tools ∨ P (.identifier tool) := by
  induction h with
  | nil => exact .inl
  | append _ _ ih ih' =>
    intro htool
    rcases ih' htool with htool | htool
    · exact ih htool
    · exact .inr htool
  | silent _ _ htools ih =>
    rw [htools]
    exact ih
  | tool hn =>
    intro htool
    rcases Scope.mem_tools_register htool with htool | rfl
    · exact .inl htool
    · exact .inr hn
  | name _ => exact .inl
  | str => exact .inl
  | number _ => exact .inl
  | bool => exact .inl
  | null => exact .inl
  | perm _ _ ih => exact ih
  | array _ ih => exact ih
  | object _ ih => exact ih
  | new _ _ ih => exact ih
  | method _ _ ih => exact ih

/-- All nodes of emitted code are clean. -/
theorem clean (h : Emitted Expr.Plain s es t) : CleanAll es := by
  have hcomponents : ∀ c ∈ components, IsIdentifier c := by decide
  have hmethods : ∀ m ∈ methods, IsIdentifier m := by decide
  induction h with
  | nil => exact cleanAll_nil
  | append _ _ ih ih' => exact cleanAll_append.2 ⟨ih, ih'⟩
  | perm _ hperm ih => exact (cleanAll_of_perm hperm).1 ih
  | silent _ _ _ ih => exact ih
  | name hn => exact .ident hn cleanAll_nil
  | tool hn => exact .ident hn cleanAll_nil
  | str => exact .str cleanAll_nil
  | number hv => exact cleanAll_cons.2 ⟨hv.harmless_toText, cleanAll_nil⟩
  | bool => exact cleanAll_cons.2 ⟨trivial, cleanAll_nil⟩
  | null => exact cleanAll_cons.2 ⟨trivial, cleanAll_nil⟩
  | array _ ih => exact cleanAll_cons.2 ⟨trivial, cleanAll_append.2 ⟨ih, cleanAll_nil⟩⟩
  | object _ ih => exact cleanAll_cons.2 ⟨trivial, cleanAll_append.2 ⟨ih, cleanAll_nil⟩⟩
  | new hc _ ih => exact .new (hcomponents _ hc) (cleanAll_append.2 ⟨ih, cleanAll_nil⟩)
  | method hm _ ih => exact .method (hmethods _ hm) ih

end Emitted

theorem harmless_repr (n : Nat) : Harmless n.repr.toList := by
  rw [Nat.toList_repr]
  exact harmless_toDigits n

theorem isIdentifier_append {front back : String} (hfront : IsIdentifier front)
    (hback : ∀ c ∈ back.toList, Text.isWordChar c = true) : IsIdentifier (front ++ back) := by
  unfold IsIdentifier at hfront ⊢
  rw [String.toList_append]
  cases hcs : front.toList with
  | nil =>
    rw [hcs] at hfront
    cases hfront
  | cons c cs =>
    rw [hcs, Text.isIdentifier, Bool.and_eq_true, List.all_eq_true] at hfront
    rw [List.cons_append, Text.isIdentifier, Bool.and_eq_true, List.all_eq_true]
    exact ⟨hfront.1, List.forall_mem_append.2 ⟨hfront.2, hback⟩⟩

namespace Module

theorem clean_separated {bs : List (List Stmt)} (h : ∀ b ∈ bs, ∀ d ∈ b, d.Clean) : ∀ d ∈ separated bs, d.Clean :=
  forall_separated .blank h

theorem clean_announcement {st : Statement} (h : IsIdentifier st.name) : (announcement st).Clean := by
  have hkeyword : Harmless st.keyword.toList := by
    unfold Statement.keyword
    split <;> decide
  refine .comment ?_
  simp only [String.toList_append, Script.harmless_append]
  exact ⟨⟨⟨⟨⟨hkeyword, by decide⟩, Script.harmless_of_isIdentifier h⟩, by decide⟩, harmless_repr st.line⟩, by decide⟩

section Clean

variable {ls : List Lowered} (hcode : CleanAll (ls.flatMap Lowered.code)) (hnamed : ∀ l ∈ ls, l.Named Expr.Plain)
include hcode hnamed

theorem clean_definitions {l : Lowered} (hl : l ∈ ls) : ∀ d ∈ l.definitions, d.Clean := by
  intro d hd
  have hl' := (cleanAll_append.1 (Script.cleanAll_flatMap.1 hcode l hl)).1
  have hexprs := Script.cleanAll_exprsOf.1 hl' d hd
  rcases (hnamed l hl).definitions d hd with ⟨n, v, rfl, hn⟩ | ⟨v, rfl⟩
  · exact .const hn hexprs
  · exact .expr hexprs

theorem clean_definitionsOf (debug : Bool) {p : Program} (hp : ∀ st ∈ p, IsIdentifier st.name) :
    ∀ d ∈ definitionsOf debug p ls, d.Clean := by
  refine clean_separated fun b hb d hd => ?_
  obtain ⟨⟨st, l⟩, hx, rfl⟩ := List.mem_map.1 hb
  obtain ⟨hst, hl⟩ := List.of_mem_zip hx
  rcases List.mem_append.1 hd with hd | hd
  · cases debug
    · cases hd
    · cases List.mem_singleton.1 hd
      exact clean_announcement (hp st hst)
  · exact clean_definitions hcode hnamed hl d hd

/-- The chains of a module have identifiers as names, and clean memories. -/
theorem clean_chains {chain : ChainEntry} (h : chain ∈ ls.filterMap (·.chain)) :
    IsIdentifier chain.name ∧ ∀ memory ∈ chain.memory, CleanAll [memory] := by
  obtain ⟨l, hl, hchain⟩ := List.mem_filterMap.1 h
  refine ⟨(hnamed l hl).chain chain hchain, fun memory hmemory => ?_⟩
  have hl' := (cleanAll_append.1 (Script.cleanAll_flatMap.1 hcode l hl)).2
  rw [hchain, Option.bind_some, hmemory] at hl'
  exact (cleanAll_cons.1 hl').2

end Clean

theorem isIdentifier_contextName {chain : String} (h : IsIdentifier chain) : IsIdentifier (contextName chain) :=
  isIdentifier_append h (List.all_eq_true.1 (by decide))

theorem clean_setting {map : String} (key : String) {value : Script.Expr} (hmap : IsIdentifier map)
    (hvalue : CleanAll [value]) : (setting map key value).Clean :=
  .expr (.method (by decide) (.ident hmap (.str hvalue)))

theorem clean_registry {tools : List String} (h : ∀ t ∈ tools, IsIdentifier t) : ∀ d ∈ registry tools, d.Clean := by
  intro d hd
  unfold registry at hd
  split at hd
  · cases hd
  simp only [List.mem_append, List.mem_cons, List.not_mem_nil, or_false, List.mem_map] at hd
  rcases hd with ((rfl | rfl) | ⟨t, ht, rfl⟩) | rfl
  · exact .const (by decide) (.new (by decide) cleanAll_nil)
  · exact .const (by decide) (.new (by decide) cleanAll_nil)
  · have hargs : CleanAll [.member (.ident t) "name", .ident t] :=
      .member (by decide) (.ident (h t ht) (.ident (h t ht) cleanAll_nil))
    exact .expr (.method (by decide) (.ident (by decide) hargs))
  · exact clean_setting _ (by decide) (.ident (by decide) cleanAll_nil)

theorem clean_memoryContext {tools : List String} {chain : String} {memory : Script.Expr} (hchain : IsIdentifier chain)
    (hmemory : CleanAll [memory]) : ∀ d ∈ memoryContext tools chain memory, d.Clean := by
  have hname := isIdentifier_contextName hchain
  intro d hd
  unfold memoryContext at hd
  simp only [List.mem_append, List.mem_cons, List.not_mem_nil, or_false] at hd
  rcases hd with (rfl | rfl) | hd
  · exact .const hname (.new (by decide) cleanAll_nil)
  · exact clean_setting _ hname hmemory
  · split at hd
    · cases hd
    · cases List.mem_singleton.1 hd
      exact clean_setting _ hname (.ident (by decide) cleanAll_nil)

theorem clean_contextsOf {tools : List String} (htools : ∀ t ∈ tools, IsIdentifier t) {chains : List ChainEntry}
    (hchains : ∀ chain ∈ chains, IsIdentifier chain.name ∧ ∀ memory ∈ chain.memory, CleanAll [memory]) :
    ∀ d ∈ contextsOf tools chains, d.Clean := by
  refine clean_separated fun b hb => ?_
  rcases List.mem_append.1 hb with hb | hb
  · split at hb
    · cases hb
    · cases List.mem_singleton.1 hb
      exact clean_registry htools
  · obtain ⟨chain, hchain, hb⟩ := List.mem_filterMap.1 hb
    obtain ⟨memory, hmemory, rfl⟩ := Option.map_eq_some_iff.1 hb
    obtain ⟨hname, hmemories⟩ := hchains chain hchain
    exact clean_memoryContext hname (hmemories memory hmemory)

theorem cleanAll_contextOf {tools : List String} {chains : List ChainEntry} {chain : String} (h : IsIdentifier chain) :
    CleanAll (contextOf tools chains chain) := by
  unfold contextOf
  split
  · exact .ident (isIdentifier_contextName h) cleanAll_nil
  · split
    · exact cleanAll_nil
    · exact .ident (by decide) cleanAll_nil

theorem clean_helper {invokeMethod chain : String} {context : List Script.Expr} (hinvoke : IsIdentifier invokeMethod)
    (hchain : IsIdentifier chain) (hcontext : CleanAll context) : (helper invokeMethod chain context).Clean := by
  have hname : IsIdentifier ("run_" ++ chain) := isIdentifier_append (by decide) (isWordChar_of_isIdentifier hchain)
  have hcall : CleanAll [(Script.Expr.ident chain).method invokeMethod (.ident "input" :: context)] := by
    refine .method hinvoke (.ident hchain (.ident (by decide) ?_))
    exact cleanAll_append.2 ⟨hcontext, cleanAll_nil⟩
  have hlog : CleanAll [(Script.Expr.ident "console").method "log" [.member (.ident "res") "content"]] :=
    .method (by decide) (.ident (by decide) (.member (by decide) (.ident (by decide) cleanAll_nil)))
  refine .function hname (by decide) fun d hd => ?_
  simp only [List.mem_cons, List.not_mem_nil, or_false] at hd
  rcases hd with rfl | rfl | rfl
  · exact .const (by decide) (cleanAll_cons.2 ⟨trivial, hcall⟩)
  · exact .expr hlog
  · exact .result (.ident (by decide) cleanAll_nil)

theorem clean_helpersOf {invokeMethod : String} (hinvoke : IsIdentifier invokeMethod) {tools : List String}
    {chains : List ChainEntry} (hchains : ∀ chain ∈ chains, IsIdentifier chain.name) :
    ∀ d ∈ helpersOf invokeMethod tools chains, d.Clean := by
  unfold helpersOf
  split
  · simp
  · refine List.forall_mem_cons.2 ⟨.comment (by decide), clean_separated fun b hb d hd => ?_⟩
    obtain ⟨chain, hchain, rfl⟩ := List.mem_map.1 hb
    cases List.mem_singleton.1 hd
    exact clean_helper hinvoke (hchains chain hchain) (cleanAll_contextOf (hchains chain hchain))

def imports (options : Options) (classes : List String) : List Stmt :=
  if classes.isEmpty then [] else [.imports classes options.runtimeModule]

def statements (options : Options) (m : Module) : List Stmt := imports options m.classes ++ m.body

/-- The tools bound in a program from a source are named by identifiers. -/
theorem isIdentifier_of_mem_tools {p : Program} {es : List Script.Expr} {t : Scope}
    (h : Emitted Expr.Plain (Scope.initial p) es t) : ∀ tool ∈ t.tools, IsIdentifier tool := by
  intro tool htool
  rcases h.mem_tools htool with htool | htool
  · cases htool
  · exact htool

theorem isIdentifier_of_mem_classesOf {p : Program} {es : List Script.Expr} {t : Scope}
    (h : Emitted Expr.Plain (Scope.initial p) es t) : ∀ c ∈ classesOf t, IsIdentifier c := by
  have hcomponents : ∀ c ∈ components, IsIdentifier c := by decide
  intro c hc
  rcases mem_classesOf.1 hc with hc | ⟨-, rfl⟩
  · exact hcomponents c ((h.regular ⟨.nil, by simp [Scope.initial]⟩).2 c hc)
  · decide

theorem clean_statements {options : Options} {p : Program} {m : Module} (h : (ofProgram options p).1 = .ok m)
    (hinvoke : IsIdentifier options.invokeMethod) (hp : ∀ st ∈ p, IsIdentifier st.name ∧ ∀ l ∈ st.leaves, l.Plain) :
    ∀ s ∈ m.statements options, s.Clean := by
  obtain ⟨ls, t, hrun, rfl⟩ := ofProgram_eq_ok h
  have hemitted := Lower.program_emits (fun st hst => (hp st hst).1) (fun st hst => (hp st hst).2) hrun
  have hnamed := Lower.named_of_program (fun st hst => (hp st hst).1) (fun st hst => (hp st hst).2) hrun
  have hcode := hemitted.clean
  have hchains : ∀ chain ∈ ls.filterMap (·.chain),
      IsIdentifier chain.name ∧ ∀ memory ∈ chain.memory, CleanAll [memory] := fun _ => clean_chains hcode hnamed
  unfold statements imports body
  refine List.forall_mem_append.2 ⟨?_, List.forall_mem_append.2 ⟨List.forall_mem_append.2 ⟨?_, ?_⟩, ?_⟩⟩
  · split
    · simp
    · exact List.forall_mem_singleton.2 (.imports (isIdentifier_of_mem_classesOf hemitted))
  · exact clean_definitionsOf hcode hnamed _ fun st hst => (hp st hst).1
  · exact clean_contextsOf (isIdentifier_of_mem_tools hemitted) hchains
  · exact clean_helpersOf hinvoke fun chain hchain => (hchains chain hchain).1

theorem sealed_sectionText {ss : List Stmt} (h : ∀ s ∈ ss, s.Clean) :
    Script.Sealed (sectionText ss).toList (Script.textsOf ss) := by
  unfold sectionText
  split
  · next hempty =>
    rw [List.isEmpty_iff.1 hempty]
    exact .nil
  · rw [String.toList_append, String.toList_append]
    exact ((Script.sealed_word "\n" (by decide)).append (Script.sealed_text h)).append_harmless (by decide)

theorem sealed_importLine {options : Options} {classes : List String} (h : ∀ s ∈ imports options classes, s.Clean) :
    Script.Sealed (importLine options classes).toList (Script.textsOf (imports options classes)) := by
  rcases classes with _ | ⟨c, cs⟩
  · exact .nil
  · change Script.Sealed (Script.text (imports options (c :: cs)) ++ "\n").toList _
    rw [String.toList_append]
    exact (Script.sealed_text h).append_harmless (by decide)

def bodyText (options : Options) (m : Module) : String :=
  importLine options m.classes ++ sectionText m.definitions ++ sectionText m.contexts ++ sectionText m.helpers

theorem sealed_bodyText {options : Options} {m : Module} (h : ∀ s ∈ m.statements options, s.Clean) :
    Script.Sealed (m.bodyText options).toList (Script.textsOf (m.statements options)) := by
  unfold statements body at h ⊢
  simp only [List.forall_mem_append] at h
  obtain ⟨himports, ⟨hdefinitions, hcontexts⟩, hhelpers⟩ := h
  have hfront := (sealed_importLine himports).append (sealed_sectionText hdefinitions)
  have hall := (hfront.append (sealed_sectionText hcontexts)).append (sealed_sectionText hhelpers)
  simpa only [bodyText, String.toList_append, Script.textsOf_append, List.append_assoc] using hall

def afterFirstLine (code : String) : List Char := (code.toList.dropWhile (· != '\n')).drop 1

theorem text_eq_append (options : Options) (name : String) (m : Module) :
    m.text options name = header name ++ m.bodyText options := by
  simp only [text, bodyText, String.append_assoc]

theorem toList_line (front middle back : String) :
    (front ++ middle ++ (back ++ "\n")).toList = front.toList ++ middle.toList ++ back.toList ++ ['\n'] := by
  have hend : "\n".toList = ['\n'] := by decide
  rw [String.toList_append, String.toList_append, String.toList_append, hend, List.append_assoc _ back.toList]

def headerLine (name : String) : List Char :=
  "// Generated by linklang from ".toList ++ name.toList ++ ". Do not edit.".toList

theorem toList_header (name : String) : (header name).toList = headerLine name ++ ['\n'] := by
  have hend : ". Do not edit.\n" = ". Do not edit." ++ "\n" := by decide
  have hheader : header name = "// Generated by linklang from " ++ name ++ (". Do not edit." ++ "\n") :=
    congrArg ("// Generated by linklang from " ++ name ++ ·) hend
  rw [hheader]
  exact toList_line _ _ _

/-- A header is a line of its own. -/
theorem not_mem_headerLine {name : String} (h : '\n' ∉ name.toList) : '\n' ∉ headerLine name := by
  have hfront : '\n' ∉ "// Generated by linklang from ".toList := by decide
  have hback : '\n' ∉ ". Do not edit.".toList := by decide
  exact List.not_mem_append (List.not_mem_append hfront h) hback

theorem afterFirstLine_text (options : Options) {name : String} (hname : '\n' ∉ name.toList) (m : Module) :
    afterFirstLine (m.text options name) = (m.bodyText options).toList := by
  have hline : ∀ c ∈ headerLine name, (c != '\n') = true :=
    fun c hc => bne_iff_ne.2 fun heq => not_mem_headerLine hname (heq ▸ hc)
  rw [afterFirstLine, text_eq_append, String.toList_append, toList_header, List.append_assoc, List.singleton_append,
    List.dropWhile_append_of_pos hline, List.dropWhile_cons_of_neg (by simp)]
  rfl

end Module

theorem compile_eq_ok {options : Options} {name source : String} {c : Compiled} {ws : List Warning}
    (h : compile options name source = (.ok c, ws)) :
    ∃ p, Program.ofSource source = .ok p ∧ (generate options name p).1 = .ok c.code := by
  unfold compile at h
  cases hp : Program.ofSource source with
  | error e =>
    rw [hp] at h
    cases h
  | ok p =>
    rw [hp] at h
    dsimp only at h
    refine ⟨p, rfl, ?_⟩
    rcases hg : generate options name p with ⟨e | code, ws'⟩
    · rw [hg] at h
      cases h
    · rw [hg] at h
      cases h
      rfl

/-- No text of a source gets into the code but through the quoter. All names in the module of a compiled source are
identifiers. What is below the first line of its code falls into string literals and single characters: the characters
are harmless, and the literals are the texts that the module holds, quoted, in their order. -/
theorem compile_contained {options : Options} {name source : String} {c : Compiled} {ws : List Warning}
    (h : compile options name source = (.ok c, ws)) (hinvoke : Text.isIdentifier options.invokeMethod.toList = true)
    (hname : '\n' ∉ name.toList) :
    ∃ p m, Program.ofSource source = .ok p ∧ (Module.ofProgram options p).1 = .ok m ∧ c.code = m.text options name ∧
      (∀ n ∈ Script.namesOf (m.statements options), Text.isIdentifier n.toList = true) ∧
      (Script.pieces (Module.afterFirstLine c.code)).flatMap Script.Piece.text = Module.afterFirstLine c.code ∧
      (∀ ch, .plain ch ∈ Script.pieces (Module.afterFirstLine c.code) → Script.isHarmless ch = true) ∧
      (Script.pieces (Module.afterFirstLine c.code)).filterMap Script.Piece.literal? =
        (Script.textsOf (m.statements options)).map fun t => (Text.quote t).toList := by
  obtain ⟨p, hp, hcode⟩ := compile_eq_ok h
  obtain ⟨m, hm, hcode⟩ := generate_eq_ok hcode
  have hclean := Module.clean_statements hm hinvoke (Program.plain_of_ofSource hp)
  obtain ⟨ps, hps, hplain, hliteral⟩ := Module.sealed_bodyText hclean
  have hpieces : Script.pieces (Module.afterFirstLine c.code) = ps := by
    have hnil := hps []
    rw [List.append_nil] at hnil
    rw [hcode, Module.afterFirstLine_text options hname, hnil]
    exact List.append_nil ps
  refine ⟨p, m, hp, hm, hcode, Script.isIdentifier_of_mem_namesOf hclean, Script.flatMap_text_pieces _, ?_, ?_⟩
  · rw [hpieces]
    exact hplain
  · rw [hpieces]
    exact hliteral

/-- A source whose texts would end a literal early, if they were not quoted. -/
def quotedSource : String := "def x = \x7b\"a;b\": \"\\\"); alert(é) \\\\\", n: y\x7d"

def quotedProgram : Program :=
  [⟨"x", 1, .definition (.object [("a;b", .string "\"); alert(é) \\"), ("n", .identifier "y")])⟩]

def quotedTokens : List Token :=
  [⟨.keyword .defKw, "def", ⟨1, 1⟩⟩, ⟨.identifier, "x", ⟨1, 5⟩⟩, ⟨.mark .assign, "=", ⟨1, 7⟩⟩,
    ⟨.mark .lbrace, "\x7b", ⟨1, 9⟩⟩, ⟨.string, "\"a;b\"", ⟨1, 10⟩⟩, ⟨.mark .colon, ":", ⟨1, 15⟩⟩,
    ⟨.string, "\"\\\"); alert(é) \\\\\"", ⟨1, 17⟩⟩, ⟨.mark .comma, ",", ⟨1, 35⟩⟩, ⟨.identifier, "n", ⟨1, 37⟩⟩,
    ⟨.mark .colon, ":", ⟨1, 38⟩⟩, ⟨.identifier, "y", ⟨1, 40⟩⟩, ⟨.mark .rbrace, "\x7d", ⟨1, 41⟩⟩, ⟨.eof, "", ⟨1, 42⟩⟩]

theorem compile_contained_quotedSource :
    ∃ c ws, compile .standard "quoted" quotedSource = (.ok c, ws) ∧
      (∀ ch, .plain ch ∈ Script.pieces (Module.afterFirstLine c.code) → Script.isHarmless ch = true) ∧
      (Script.pieces (Module.afterFirstLine c.code)).filterMap Script.Piece.literal? =
        ["a;b", "\"); alert(é) \\"].map fun t => (Text.quote t).toList := by
  have htokens : Token.tokenize quotedSource = .ok quotedTokens := rfl
  have hsource : Program.ofSource quotedSource = .ok quotedProgram := (Program.ofSource_of_tokenize htokens).trans rfl
  have hcode : ∃ code ws, generate .standard "quoted" quotedProgram = (.ok code, ws) := ⟨_, _, rfl⟩
  obtain ⟨code, ws, hcode⟩ := hcode
  have h : compile .standard "quoted" quotedSource = (.ok ⟨"quoted", code⟩, ws) := by
    rw [compile, hsource]
    simp only [hcode]
    rfl
  obtain ⟨p, m, hp, hm, -, -, -, hplain, hliterals⟩ := compile_contained h (by decide) (by decide)
  refine ⟨_, ws, h, hplain, ?_⟩
  cases hsource.symm.trans hp
  cases hm
  exact hliterals

end ChainCompiler
