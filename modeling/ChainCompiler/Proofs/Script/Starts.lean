import ChainCompiler.Proofs.Script.Folding

/-! How the lines of a script start. Code whose names have no line breaks starts each line with a word, a bracket or a
blank, so a line that starts with a slash is a comment. -/

namespace ChainCompiler.Script

theorem head?_ne_of_not_mem {c : Char} {cs : List Char} (h : c ∉ cs) : cs.head? ≠ some c :=
  fun hhead => h (List.mem_of_mem_head? hhead)

theorem head?_cons_ne {c d : Char} {cs : List Char} (hd : d ≠ c) : (d :: cs).head? ≠ some c :=
  fun hhead => hd (Option.some.inj hhead)

theorem head?_append_ne {c : Char} {a b : List Char} (ha : a.head? ≠ some c) (hb : b.head? ≠ some c) :
    (a ++ b).head? ≠ some c := by
  cases a with
  | nil => exact hb
  | cons d a => exact ha

/-- An expression whose names lack slashes does not start with one. -/
theorem Expr.head?_render {e : Expr} (h : ∀ n ∈ e.nodes, n.Avoids '/') : ∀ level, (e.render level).head? ≠ some '/' := by
  refine Expr.of_nodes (P := fun e => ∀ level, (e.render level).head? ≠ some '/') ?_ e h
  intro e hname ih level
  cases e with
  | ident name => exact head?_ne_of_not_mem (hname name rfl)
  | str text =>
    rw [render_str, Text.toList_quote]
    exact head?_cons_ne (by decide)
  | number value => exact head?_ne_of_not_mem (not_mem_toText (by decide) (by decide) value)
  | bool value =>
    rw [render_bool]
    cases value <;> decide
  | null =>
    rw [render_null]
    decide
  | array items =>
    rw [render_array]
    split_ifs <;> exact head?_cons_ne (by decide)
  | object fields =>
    rw [render_object]
    split_ifs <;> exact head?_cons_ne (by decide)
  | new className args => exact head?_cons_ne (by decide)
  | call callee args => exact head?_append_ne (ih callee List.mem_cons_self level) (head?_cons_ne (by decide))
  | member owner property => exact head?_append_ne (ih owner List.mem_cons_self level) (head?_cons_ne (by decide))
  | await value => exact head?_cons_ne (by decide)

/-- A text none of whose lines starts with a slash, by its indentation. -/
structure Steady (level : Nat) (cs : List Char) : Prop where
  indented : Indented level cs
  head : cs.head? ≠ some '/'

namespace Steady

variable {level : Nat} {cs : List Char}

theorem head?_of_mem_lines (h : Steady level cs) {l : List Char} (hl : l ∈ lines cs) : l.head? ≠ some '/' := by
  rw [lines_eq_cons] at hl
  rcases List.mem_cons.1 hl with rfl | hl
  · have hhead := h.head
    cases cs with
    | nil => exact hhead
    | cons c cs =>
      rw [List.takeWhile_cons]
      split
      · exact hhead
      · rintro ⟨⟩
  · obtain ⟨c, rest, rfl, hc⟩ := h.indented.of_mem_tail hl
    refine head?_append_ne (head?_ne_of_not_mem (not_mem_indent (by decide) level)) ?_
    rcases hc with rfl | rfl | rfl <;> exact head?_cons_ne (by decide)

theorem mono (h : Steady (level + 1) cs) : Steady level cs := ⟨h.indented.mono, h.head⟩

theorem of_indented (hcs : Indented level cs) (hhead : level = 0 → cs.head? ≠ some '/') :
    Steady level (indent level ++ cs) := by
  refine ⟨(Indented.of_not_mem (not_mem_indent (by decide) level)).append hcs, ?_⟩
  cases level with
  | zero => exact hhead rfl
  | succ level =>
    rw [Nat.add_comm, indent, Nat.mul_add, List.replicate_add]
    exact head?_cons_ne (by decide)

theorem word {word : String} {back : List Char} (hword : '\n' ∉ word.toList)
    (hhead : (word.toList ++ back).head? ≠ some '/') (hback : Indented level back) :
    Steady level (indent level ++ (word.toList ++ back)) :=
  of_indented ((Indented.of_not_mem hword).append hback) fun _ => hhead

end Steady

section Statements

variable {level : Nat} {name : String} {value : Expr}

/-- A statement whose lines, at the level, do not start with slashes. -/
def Stmt.Steady (level : Nat) (s : Stmt) : Prop := ∀ cs ∈ s.lines level, Script.Steady level cs

theorem steady_blank : Stmt.blank.Steady level :=
  List.forall_mem_singleton.2 ⟨.of_not_mem List.not_mem_nil, by decide⟩

theorem indented_value (hvalue : ∀ n ∈ value.nodes, n.Avoids '\n') (level : Nat) :
    Indented level (value.render level ++ [';']) :=
  (value.indented_render hvalue level).append (.of_not_mem (by decide))

theorem steady_const (hname : '\n' ∉ name.toList) (hvalue : ∀ n ∈ value.nodes, n.Avoids '\n') :
    (Stmt.const name value).Steady level := by
  have hequals : Indented level " = ".toList := .of_not_mem (by decide)
  intro cs hcs
  simp only [Stmt.lines, List.mem_singleton, List.append_assoc] at hcs
  rw [hcs]
  refine .word (by decide) (head?_cons_ne (by decide)) ?_
  exact (Indented.of_not_mem hname).append (hequals.append (indented_value hvalue level))

theorem steady_expr (hvalue : ∀ n ∈ value.nodes, n.Avoids '\n') (hhead : level = 0 → ∀ n ∈ value.nodes, n.Avoids '/') :
    (Stmt.expr value).Steady level := by
  intro cs hcs
  simp only [Stmt.lines, List.mem_singleton, List.append_assoc] at hcs
  rw [hcs]
  refine .of_indented (indented_value hvalue level) fun hlevel => ?_
  exact head?_append_ne (Expr.head?_render (hhead hlevel) level) (by decide)

theorem steady_result (hvalue : ∀ n ∈ value.nodes, n.Avoids '\n') : (Stmt.result value).Steady level := by
  intro cs hcs
  simp only [Stmt.lines, List.mem_singleton, List.append_assoc] at hcs
  rw [hcs]
  exact .word (by decide) (head?_cons_ne (by decide)) (indented_value hvalue level)

theorem not_mem_names {ns : List String} (h : ∀ n ∈ ns, '\n' ∉ n.toList) : '\n' ∉ names ns :=
  joined_of (Q := fun cs => '\n' ∉ cs) List.not_mem_nil List.not_mem_append (by decide) (List.forall_mem_map.2 h)

theorem steady_imports {ns : List String} (h : ∀ n ∈ ns, '\n' ∉ n.toList) (source : String) :
    (Stmt.imports ns source).Steady level := by
  have hfrom : '\n' ∉ " \x7d from ".toList := by decide
  have hsource : '\n' ∉ (Text.quote source).toList := not_mem_quote (by decide)
  have hend : '\n' ∉ [';'] := by decide
  intro cs hcs
  simp only [Stmt.lines, List.mem_singleton, List.append_assoc] at hcs
  rw [hcs]
  refine .word (by decide) (head?_cons_ne (by decide)) (.of_not_mem ?_)
  exact List.not_mem_append (not_mem_names h) (List.not_mem_append hfrom (List.not_mem_append hsource hend))

theorem linesOf_eq_flatMap (level : Nat) (ss : List Stmt) : linesOf level ss = ss.flatMap (Stmt.lines level) := by
  induction ss with
  | nil => rfl
  | cons s ss ih => rw [linesOf, ih, List.flatMap_cons]

theorem steady_function {params : List String} {body : List Stmt} (hname : '\n' ∉ name.toList)
    (hparams : ∀ n ∈ params, '\n' ∉ n.toList) (hbody : ∀ s ∈ body, s.Steady (level + 1)) :
    (Stmt.function name params body).Steady level := by
  have hend : '\n' ∉ ") \x7b".toList := by decide
  have hopening : '\n' ∉ '(' :: (names params ++ ") \x7b".toList) :=
    List.not_mem_cons_of_ne_of_not_mem (by decide) (List.not_mem_append (not_mem_names hparams) hend)
  intro cs hcs
  simp only [Stmt.lines, List.mem_cons, List.mem_append, List.append_assoc, List.cons_append, List.not_mem_nil,
    or_false] at hcs
  rcases hcs with rfl | hcs | rfl
  · exact .word (by decide) (head?_cons_ne (by decide)) (.of_not_mem (List.not_mem_append hname hopening))
  · rw [linesOf_eq_flatMap] at hcs
    obtain ⟨s, hs, hcs⟩ := List.mem_flatMap.1 hcs
    exact (hbody s hs cs hcs).mono
  · exact .of_indented (.of_not_mem (by decide)) fun _ => by decide

/-- Identifiers lack all characters that no word has. -/
theorem not_mem_of_isIdentifier {c : Char} (hc : Text.isWordChar c = false) (h : IsIdentifier name) :
    c ∉ name.toList :=
  fun hmem => absurd (isWordChar_of_isIdentifier h c hmem) (by simp [hc])

theorem avoids_of_cleanAll {c : Char} (hc : Text.isWordChar c = false) (h : CleanAll [value]) :
    ∀ n ∈ value.nodes, n.Avoids c := by
  intro n hn name hname
  have hclean : n.Clean := h n (List.mem_append_left _ hn)
  exact not_mem_of_isIdentifier hc (hclean.isIdentifier name hname)

/-- A statement that declares a constant or runs an expression, or an empty line. -/
inductive Stmt.IsEntry : Stmt → Prop
  | const (n : String) (e : Expr) : IsEntry (.const n e)
  | expr (e : Expr) : IsEntry (.expr e)
  | blank : IsEntry .blank

theorem Stmt.Clean.steady {s : Stmt} (h : s.Clean) (hentry : s.IsEntry) : s.Steady level := by
  cases h with
  | const hname hvalue =>
    exact steady_const (not_mem_of_isIdentifier (by decide) hname) (avoids_of_cleanAll (by decide) hvalue)
  | expr hvalue =>
    exact steady_expr (avoids_of_cleanAll (by decide) hvalue) fun _ => avoids_of_cleanAll (by decide) hvalue
  | blank => exact steady_blank
  | imports _ => cases hentry
  | result _ => cases hentry
  | comment _ => cases hentry
  | function _ _ _ => cases hentry

end Statements

section Lines

def textLines (ss : List Stmt) : List (List Char) := (linesOf 0 ss).flatMap lines

@[simp] theorem textLines_nil : textLines [] = [] := rfl

theorem textLines_append (ss us : List Stmt) : textLines (ss ++ us) = textLines ss ++ textLines us := by
  rw [textLines, linesOf_append, List.flatMap_append]
  rfl

theorem linesOf_ne_nil {ss : List Stmt} (h : ss ≠ []) (level : Nat) : linesOf level ss ≠ [] := by
  cases ss with
  | nil => exact absurd rfl h
  | cons s ss => cases s <;> simp [linesOf, Stmt.lines]

theorem lines_text {ss : List Stmt} (h : ss ≠ []) : lines (text ss).toList = textLines ss := by
  rw [text, String.toList_ofList, lines_joined (linesOf_ne_nil h 0)]
  rfl

theorem head?_of_mem_textLines {ss : List Stmt} (h : ∀ s ∈ ss, s.Steady 0) {l : List Char} (hl : l ∈ textLines ss) :
    l.head? ≠ some '/' := by
  obtain ⟨cs, hcs, hl⟩ := List.mem_flatMap.1 hl
  rw [linesOf_eq_flatMap] at hcs
  obtain ⟨s, hs, hcs⟩ := List.mem_flatMap.1 hcs
  exact (h s hs cs hcs).head?_of_mem_lines hl

end Lines

end ChainCompiler.Script
