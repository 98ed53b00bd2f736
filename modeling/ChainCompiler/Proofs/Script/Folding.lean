import ChainCompiler.Proofs.Script.Rendering
import ChainCompiler.Proofs.Unsigned

/-! Where the text of a script breaks into lines. A list or an object may be folded over several lines, but between two
of its members only: no literal is broken, what stands on the lines is the text on one line but for blanks, and all lines
after the first are indented. -/

namespace ChainCompiler.Script

open ChainCompiler.Text

section Lines

/-- The lines of a text: what stands before, between and after its line breaks. -/
def lines : List Char → List (List Char)
  | [] => [[]]
  | c :: cs => if c = '\n' then [] :: lines cs else (lines cs).modifyHead (c :: ·)

@[simp] theorem lines_break (cs : List Char) : lines ('\n' :: cs) = [] :: lines cs := rfl

theorem lines_cons {c : Char} (hc : c ≠ '\n') (cs : List Char) : lines (c :: cs) = (lines cs).modifyHead (c :: ·) :=
  if_neg hc

/-- The first line ends before the first line break. -/
theorem lines_eq_cons (cs : List Char) : lines cs = cs.takeWhile (· != '\n') :: (lines cs).tail := by
  induction cs with
  | nil => rfl
  | cons c cs ih =>
    by_cases hc : c = '\n'
    · subst hc
      rfl
    · rw [lines_cons hc, ih, List.takeWhile_cons_of_pos (by simpa using hc)]
      rfl

theorem lines_append_break (a b : List Char) : lines (a ++ '\n' :: b) = lines a ++ lines b := by
  induction a with
  | nil => rfl
  | cons c a ih =>
    by_cases hc : c = '\n'
    · subst hc
      rw [List.cons_append, lines_break, ih, lines_break, List.cons_append]
    · rw [List.cons_append, lines_cons hc, ih, lines_cons hc, lines_eq_cons a]
      rfl

theorem lines_of_not_mem {cs : List Char} (h : '\n' ∉ cs) : lines cs = [cs] := by
  induction cs with
  | nil => rfl
  | cons c cs ih =>
    have hc : '\n' ≠ c := List.ne_of_not_mem_cons h
    rw [lines_cons hc.symm, ih (List.not_mem_of_not_mem_cons h)]
    rfl

/-- A line after the first is what follows a line break, up to the next one. -/
theorem exists_of_mem_tail_lines {l cs : List Char} (h : l ∈ (lines cs).tail) :
    ∃ front back, cs = front ++ '\n' :: back ∧ l = back.takeWhile (· != '\n') := by
  induction cs with
  | nil => cases h
  | cons c cs ih =>
    by_cases hc : c = '\n'
    · subst hc
      rw [lines_break, List.tail_cons, lines_eq_cons] at h
      rcases List.mem_cons.1 h with rfl | h
      · exact ⟨[], cs, rfl, rfl⟩
      · obtain ⟨front, back, hcs, hl⟩ := ih h
        exact ⟨'\n' :: front, back, by rw [hcs, List.cons_append], hl⟩
    · rw [lines_cons hc, lines_eq_cons] at h
      obtain ⟨front, back, hcs, hl⟩ := ih h
      exact ⟨c :: front, back, by rw [hcs, List.cons_append], hl⟩

theorem lines_joined {parts : List (List Char)} (h : parts ≠ []) : lines (joined "\n" parts) = parts.flatMap lines := by
  induction parts with
  | nil => exact absurd rfl h
  | cons x parts ih =>
    cases parts with
    | nil => simp [joined]
    | cons y ys =>
      have hbreak : joined "\n" (x :: y :: ys) = x ++ '\n' :: joined "\n" (y :: ys) := by
        simp [joined, List.intercalate_cons_cons]
      rw [hbreak, lines_append_break, ih (List.cons_ne_nil _ _)]
      rfl

/-- The lines of a text with line breaks between them are the text. -/
theorem joined_lines (cs : List Char) : joined "\n" (lines cs) = cs := by
  induction cs with
  | nil => rfl
  | cons c cs ih =>
    by_cases hc : c = '\n'
    · subst hc
      rw [lines_break, lines_eq_cons] at *
      simpa [joined, List.intercalate_cons_cons] using ih
    · rw [lines_cons hc]
      rw [lines_eq_cons] at ih ⊢
      cases htail : (lines cs).tail with
      | nil => simpa [joined, htail] using ih
      | cons l ls => simpa [joined, List.intercalate_cons_cons, htail] using ih

end Lines

section Ink

/-- What a piece shows when blanks outside of literals do not count. -/
def Piece.ink : Piece → List Char
  | .literal text => text
  | .plain c => if c = ' ' ∨ c = '\n' then [] else [c]

/-- A text without the blanks and line breaks that stand outside of its literals. -/
def ink (cs : List Char) : List Char := (pieces cs).flatMap Piece.ink

/-- A text whose literals end in it, each on one line. -/
structure Whole (cs : List Char) : Prop where
  pieces_append : ∀ rest, pieces (cs ++ rest) = pieces cs ++ pieces rest
  unbroken : ∀ t, .literal t ∈ pieces cs → '\n' ∉ t ∧ '\r' ∉ t

theorem ink_append {cs : List Char} (h : Whole cs) (ds : List Char) : ink (cs ++ ds) = ink cs ++ ink ds := by
  rw [ink, h.pieces_append, List.flatMap_append]
  rfl

namespace Whole

theorem append {cs ds : List Char} (h : Whole cs) (h' : Whole ds) : Whole (cs ++ ds) where
  pieces_append rest := by
    rw [List.append_assoc, h.pieces_append, h'.pieces_append, h.pieces_append, List.append_assoc]
  unbroken t ht := by
    rw [h.pieces_append] at ht
    exact (List.mem_append.1 ht).elim (h.unbroken t) (h'.unbroken t)

theorem of_not_mem {cs : List Char} (h : '"' ∉ cs) : Whole cs := by
  induction cs with
  | nil => exact ⟨fun rest => rfl, fun t ht => absurd ht List.not_mem_nil⟩
  | cons c cs ih =>
    have hcs := ih (List.not_mem_of_not_mem_cons h)
    have hpieces := pieces_cons_of_ne (List.ne_of_not_mem_cons h).symm
    refine ⟨fun rest => ?_, fun t ht => ?_⟩
    · rw [List.cons_append, hpieces, hpieces, hcs.pieces_append, List.cons_append]
    · rw [hpieces] at ht
      exact hcs.unbroken t ((List.mem_cons.1 ht).resolve_left (by simp))

end Whole

theorem hexDigit_ge : ∀ n < 16, 0x20 ≤ (hexDigit n).toNat := by decide

/-- No control character below U+0020 stands in an escaped text. -/
theorem ge_of_mem_escapeChar {c d : Char} (h : d ∈ escapeChar c) : 0x20 ≤ d.toNat := by
  have hpair : ∀ a b : Char, 0x20 ≤ a.toNat → 0x20 ≤ b.toNat → ∀ d ∈ [a, b], 0x20 ≤ d.toNat :=
    fun a b ha hb => List.forall_mem_cons.2 ⟨ha, List.forall_mem_singleton.2 hb⟩
  have hall : ∀ d ∈ escapeChar c, 0x20 ≤ d.toNat := by
    unfold escapeChar
    split_ifs with _ _ _ _ _ _ _ hcontrol
    iterate 7 exact hpair _ _ (by decide) (by decide)
    · have hhigh := hexDigit_ge (c.toNat / 16) (by omega)
      have hlow := hexDigit_ge (c.toNat % 16) (by omega)
      simp [hhigh, hlow]
    · simpa using hcontrol
  exact hall d h

theorem ge_of_mem_quote {t : String} {d : Char} (h : d ∈ (quote t).toList) : 0x20 ≤ d.toNat := by
  rw [toList_quote, List.mem_append, List.mem_cons, List.mem_singleton] at h
  rcases h with (rfl | h) | rfl
  · decide
  · obtain ⟨c, _, hd⟩ := List.mem_flatMap.1 h
    exact ge_of_mem_escapeChar hd
  · decide

theorem not_mem_quote {t : String} {c : Char} (hc : c.toNat < 0x20) : c ∉ (quote t).toList := by
  intro h
  have hge := ge_of_mem_quote h
  omega

theorem pieces_quote (t : String) : pieces (quote t).toList = [.literal (quote t).toList] := by
  have happend := pieces_quote_append t []
  rwa [List.append_nil] at happend

theorem Whole.quote (t : String) : Whole (quote t).toList := by
  refine ⟨fun rest => ?_, fun u hu => ?_⟩
  · rw [pieces_quote, pieces_quote_append]
    rfl
  · rw [pieces_quote, List.mem_singleton] at hu
    cases hu
    exact ⟨not_mem_quote (by decide), not_mem_quote (by decide)⟩

theorem not_mem_indent {c : Char} (hc : c ≠ ' ') (level : Nat) : c ∉ indent level :=
  fun h => hc (List.eq_of_mem_replicate h)

structure SameInk (cs ds : List Char) : Prop where
  left : Whole cs
  right : Whole ds
  ink_eq : ink cs = ink ds

namespace SameInk

theorem refl {cs : List Char} (h : Whole cs) : SameInk cs cs := ⟨h, h, rfl⟩

theorem plain (cs : List Char) (h : '"' ∉ cs) : SameInk cs cs := .refl (.of_not_mem h)

theorem word {cs ds : List Char} (hcs : '"' ∉ cs) (hds : '"' ∉ ds) (h : ink cs = ink ds) : SameInk cs ds :=
  ⟨.of_not_mem hcs, .of_not_mem hds, h⟩

theorem append {a b c d : List Char} (h : SameInk a b) (h' : SameInk c d) : SameInk (a ++ c) (b ++ d) where
  left := h.left.append h'.left
  right := h.right.append h'.right
  ink_eq := by rw [ink_append h.left, ink_append h.right, h.ink_eq, h'.ink_eq]

theorem indent (level : Nat) : SameInk (indent level) [] := by
  have hink : ∀ n, ink (List.replicate n ' ') = [] := by
    intro n
    induction n with
    | zero => rfl
    | succ n ih =>
      rw [List.replicate_succ, ink, pieces_cons_of_ne (by decide)]
      exact ih
  have hquote : '"' ∉ Script.indent level := not_mem_indent (by decide) level
  exact .word hquote List.not_mem_nil (hink _)

section Members

variable {α : Type} {xs : List α} {f g : α → List Char} {sep sep' o o' c c' : String}

theorem joined (hsep : SameInk sep.toList sep'.toList) (h : ∀ x ∈ xs, SameInk (f x) (g x)) :
    SameInk (joined sep (xs.map f)) (joined sep' (xs.map g)) := by
  induction xs with
  | nil => exact .refl (.of_not_mem List.not_mem_nil)
  | cons x xs ih =>
    obtain ⟨hx, hxs⟩ := List.forall_mem_cons.1 h
    cases xs with
    | nil => simpa [Script.joined] using hx
    | cons y ys =>
      have hrest := ih hxs
      simp only [Script.joined, List.map_cons, List.intercalate_cons_cons] at hrest ⊢
      exact (hx.append hsep).append hrest

variable (ho : SameInk o.toList o'.toList) (hc : SameInk c.toList c'.toList) (h : ∀ x ∈ xs, SameInk (f x) (g x))
include ho hc h

theorem oneLine : SameInk (oneLine o c (xs.map f)) (oneLine o' c' (xs.map g)) := by
  have hsep : SameInk ", ".toList ", ".toList := .plain _ (by decide)
  exact (ho.append (joined hsep h)).append hc

theorem manyLines (level : Nat) : SameInk (manyLines o c level (xs.map f)) (Script.oneLine o' c' (xs.map g)) := by
  have hmembers : ∀ x ∈ xs, SameInk (Script.indent (level + 1) ++ f x) (g x) :=
    fun x hx => (indent (level + 1)).append (h x hx)
  have hsep : SameInk ",\n".toList ", ".toList := .word (by decide) (by decide) (by decide)
  have hbreak : SameInk ['\n'] [] := .word (by decide) (by decide) (by decide)
  have hinside := (hbreak.append (joined hsep hmembers)).append (hbreak.append (indent level))
  have hall := (ho.append hinside).append hc
  rw [Script.manyLines, List.map_map]
  simpa [Script.oneLine, Function.comp_def] using hall

end Members

end SameInk

end Ink

/-- The name that stands at a node, if there is one, lacks the character. -/
def Expr.Avoids (c : Char) (n : Expr) : Prop := ∀ name ∈ n.name?, c ∉ name.toList

instance (c : Char) (n : Expr) : Decidable (n.Avoids c) := inferInstanceAs (Decidable (∀ _ ∈ _, _))

section Words

variable {c : Char}

theorem not_mem_toText (hfigure : isFigure c = false) (hword : c ∉ "-NaNinf".toList) (v : Double) :
    c ∉ v.toText.toList := by
  have hwords : ∀ word : String, word.toList ⊆ "-NaNinf".toList → c ∉ word.toList := fun _ hsub hc => hword (hsub hc)
  cases v with
  | nan => exact hwords "NaN" (by decide)
  | infinite negative =>
    cases negative with
    | true => exact hwords "-inf" (by decide)
    | false => exact hwords "inf" (by decide)
  | finite negative size =>
    have hsize : c ∉ size.text := fun hc => absurd (isFigure_of_mem_text c hc) (by simp [hfigure])
    rw [Double.toText, String.toList_ofList]
    cases negative with
    | true => exact List.not_mem_cons_of_ne_of_not_mem (List.ne_of_not_mem_cons hword) hsize
    | false => exact hsize

theorem not_mem_of_isBareKey {key : String} (hkey : isBareKey key = true) (hc : isKeyChar c = false) : c ∉ key.toList :=
  fun hmem => absurd (isKeyChar_of_isBareKey hkey c hmem) (by simp [hc])

theorem whole_keyText (key : String) : Whole (keyText key) := by
  unfold keyText
  split
  · next hbare => exact .of_not_mem (not_mem_of_isBareKey hbare (by decide))
  · exact .quote key

theorem not_mem_keyText (key : String) : '\n' ∉ keyText key := by
  unfold keyText
  split
  · next hbare => exact not_mem_of_isBareKey hbare (by decide)
  · exact not_mem_quote (by decide)

end Words

section Flat

mutual

def Expr.flat : Expr → List Char
  | .ident name => name.toList
  | .str text => (quote text).toList
  | .number value => value.toText.toList
  | .bool value => (if value then "true" else "false").toList
  | .null => "null".toList
  | .array items => if items.isEmpty then "[]".toList else oneLine "[" "]" (flatItems items)
  | .object fields => if fields.isEmpty then "\x7b\x7d".toList else oneLine "\x7b " " \x7d" (flatFields fields)
  | .new className args => "new ".toList ++ className.toList ++ oneLine "(" ")" (flatItems args)
  | .call callee args => callee.flat ++ oneLine "(" ")" (flatItems args)
  | .member owner property => owner.flat ++ '.' :: property.toList
  | .await value => "await ".toList ++ value.flat

def flatItems : List Expr → List (List Char)
  | [] => []
  | e :: es => e.flat :: flatItems es

def flatFields : List (String × Expr) → List (List Char)
  | [] => []
  | (key, e) :: fields => (keyText key ++ ": ".toList ++ e.flat) :: flatFields fields

end

theorem flatItems_eq_map (es : List Expr) : flatItems es = es.map Expr.flat := by
  induction es with
  | nil => rfl
  | cons e es ih => rw [flatItems, ih, List.map_cons]

theorem flatFields_eq_map (fields : List (String × Expr)) :
    flatFields fields = fields.map fun f => keyText f.1 ++ ": ".toList ++ f.2.flat := by
  induction fields with
  | nil => rfl
  | cons f fields ih => rw [flatFields, ih, List.map_cons]

namespace Expr

theorem flat_array (items : List Expr) :
    (array items).flat = if items.isEmpty then "[]".toList else oneLine "[" "]" (items.map flat) := by
  rw [← flatItems_eq_map]
  rfl

theorem flat_object (fields : List (String × Expr)) :
    (object fields).flat = if fields.isEmpty then "\x7b\x7d".toList
      else oneLine "\x7b " " \x7d" (fields.map fun f => keyText f.1 ++ ": ".toList ++ f.2.flat) := by
  rw [← flatFields_eq_map]
  rfl

theorem flat_new (className : String) (args : List Expr) :
    (new className args).flat = "new ".toList ++ className.toList ++ oneLine "(" ")" (args.map flat) := by
  rw [← flatItems_eq_map]
  rfl

theorem flat_call (callee : Expr) (args : List Expr) :
    (call callee args).flat = callee.flat ++ oneLine "(" ")" (args.map flat) := by
  rw [← flatItems_eq_map]
  rfl

end Expr

/-- At each level, the text of an expression is its text on one line but for blanks outside of literals. -/
theorem Expr.sameInk_render {e : Expr} (h : ∀ n ∈ e.nodes, n.Avoids '"') :
    ∀ level, SameInk (e.render level) e.flat := by
  have hparen : SameInk "(".toList "(".toList := .plain _ (by decide)
  have hparen' : SameInk ")".toList ")".toList := .plain _ (by decide)
  refine Expr.of_nodes (P := fun e => ∀ level, SameInk (e.render level) e.flat) ?_ e h
  intro e hname ih level
  cases e with
  | ident name => exact .plain _ (hname name rfl)
  | str text => exact .refl (.quote text)
  | number value => exact .plain _ (not_mem_toText (by decide) (by decide) value)
  | bool value =>
    cases value with
    | true => exact .plain "true".toList (by decide)
    | false => exact .plain "false".toList (by decide)
  | null => exact .plain "null".toList (by decide)
  | array items =>
    have hitems : ∀ level, ∀ x ∈ items, SameInk (x.render level) x.flat := fun level x hx => ih x hx level
    rw [render_array, flat_array, renderItems_eq_map, renderItems_eq_map]
    split_ifs
    · exact .plain _ (by decide)
    · exact .manyLines (.plain _ (by decide)) (.plain _ (by decide)) (hitems (level + 1)) level
    · exact .oneLine (.plain _ (by decide)) (.plain _ (by decide)) (hitems level)
  | object fields =>
    have hfields : ∀ level, ∀ f ∈ fields,
        SameInk (keyText f.1 ++ ": ".toList ++ f.2.render level) (keyText f.1 ++ ": ".toList ++ f.2.flat) := by
      intro level f hf
      have hkey := (SameInk.refl (whole_keyText f.1)).append (.plain ": ".toList (by decide))
      exact hkey.append (ih f.2 (List.mem_map_of_mem hf) level)
    rw [render_object, flat_object, renderFields_eq_map, renderFields_eq_map]
    split_ifs
    · exact .plain _ (by decide)
    · exact .manyLines (.word (by decide) (by decide) (by decide)) (.word (by decide) (by decide) (by decide))
        (hfields (level + 1)) level
    · exact .oneLine (.plain _ (by decide)) (.plain _ (by decide)) (hfields level)
  | new className args =>
    have hclass := (SameInk.plain "new ".toList (by decide)).append (.plain _ (hname className rfl))
    rw [render_new, flat_new, renderItems_eq_map]
    exact hclass.append (.oneLine hparen hparen' fun x hx => ih x hx level)
  | call callee args =>
    obtain ⟨hcallee, hargs⟩ := List.forall_mem_cons.1 ih
    rw [render_call, flat_call, renderItems_eq_map]
    exact (hcallee level).append (.oneLine hparen hparen' fun x hx => hargs x hx level)
  | member owner property =>
    have hproperty := List.not_mem_cons_of_ne_of_not_mem (show '"' ≠ '.' by decide) (hname property rfl)
    exact (ih owner List.mem_cons_self level).append (.plain _ hproperty)
  | await value => exact (SameInk.plain "await ".toList (by decide)).append (ih value List.mem_cons_self level)

end Flat

section Assembly

/-- What holds of texts and of the separator, and is kept when texts are put together, holds of the texts joined. -/
theorem joined_of {Q : List Char → Prop} (hnil : Q []) (happend : ∀ {a b}, Q a → Q b → Q (a ++ b)) {sep : String}
    (hsep : Q sep.toList) {parts : List (List Char)} (h : ∀ x ∈ parts, Q x) : Q (joined sep parts) := by
  induction parts with
  | nil => exact hnil
  | cons x parts ih =>
    obtain ⟨hx, hparts⟩ := List.forall_mem_cons.1 h
    cases parts with
    | nil => simpa [joined] using hx
    | cons y ys =>
      rw [joined, List.intercalate_cons_cons]
      exact happend (happend hx hsep) (ih hparts)

theorem not_mem_oneLine {c : Char} (hsep : c ∉ ", ".toList) {opening closing : String} (ho : c ∉ opening.toList)
    (hc : c ∉ closing.toList) {members : List (List Char)} (h : ∀ x ∈ members, c ∉ x) :
    c ∉ oneLine opening closing members := by
  have hjoined : c ∉ joined ", " members := joined_of List.not_mem_nil List.not_mem_append hsep h
  exact List.not_mem_append (List.not_mem_append ho hjoined) hc

end Assembly

/-- The text of an expression on one line has no line break. -/
theorem Expr.not_mem_flat {e : Expr} (h : ∀ n ∈ e.nodes, n.Avoids '\n') : '\n' ∉ e.flat := by
  refine Expr.of_nodes (P := fun e => '\n' ∉ e.flat) ?_ e h
  intro e hname ih
  cases e with
  | ident name => exact hname name rfl
  | str text => exact not_mem_quote (by decide)
  | number value => exact not_mem_toText (by decide) (by decide) value
  | bool value => cases value <;> decide
  | null => decide
  | array items =>
    rw [flat_array]
    split
    · decide
    · exact not_mem_oneLine (by decide) (by decide) (by decide) (List.forall_mem_map.2 ih)
  | object fields =>
    rw [flat_object]
    split
    · decide
    · refine not_mem_oneLine (by decide) (by decide) (by decide) (List.forall_mem_map.2 fun f hf => ?_)
      have hcolon : '\n' ∉ ": ".toList := by decide
      exact List.not_mem_append (List.not_mem_append (not_mem_keyText f.1) hcolon) (ih f.2 (List.mem_map_of_mem hf))
  | new className args =>
    rw [flat_new]
    refine List.not_mem_append ?_ (not_mem_oneLine (by decide) (by decide) (by decide) (List.forall_mem_map.2 ih))
    exact List.not_mem_append (by decide) (hname className rfl)
  | call callee args =>
    obtain ⟨hcallee, hargs⟩ := List.forall_mem_cons.1 ih
    rw [flat_call]
    refine List.not_mem_append hcallee ?_
    exact not_mem_oneLine (by decide) (by decide) (by decide) (List.forall_mem_map.2 hargs)
  | member owner property =>
    have hproperty := List.not_mem_cons_of_ne_of_not_mem (show '\n' ≠ '.' by decide) (hname property rfl)
    exact List.not_mem_append (ih owner List.mem_cons_self) hproperty
  | await value =>
    have hawait : '\n' ∉ "await ".toList := by decide
    exact List.not_mem_append hawait (ih value List.mem_cons_self)

section Indentation

/-- After each line break of a text stand the blanks of the level, and then a further blank or a closing bracket. -/
def Indented (level : Nat) (cs : List Char) : Prop :=
  ∀ front back, cs = front ++ '\n' :: back →
    ∃ c rest, back = indent level ++ c :: rest ∧ (c = ' ' ∨ c = ']' ∨ c = '\x7d')

theorem indent_succ (level : Nat) : indent (level + 1) = indent level ++ "    ".toList := by
  rw [indent, Nat.mul_succ, List.replicate_add]
  rfl

/-- A line after the first starts with the blanks of the level. -/
theorem Indented.of_mem_tail {level : Nat} {cs l : List Char} (h : Indented level cs) (hl : l ∈ (lines cs).tail) :
    ∃ c rest, l = indent level ++ c :: rest ∧ (c = ' ' ∨ c = ']' ∨ c = '\x7d') := by
  obtain ⟨front, back, hcs, rfl⟩ := exists_of_mem_tail_lines hl
  obtain ⟨c, rest, rfl, hc⟩ := h front back hcs
  have hblank : ∀ d ∈ indent level, (d != '\n') = true := by
    intro d hd
    rw [List.eq_of_mem_replicate hd]
    rfl
  have hne : (c != '\n') = true := by rcases hc with rfl | rfl | rfl <;> rfl
  refine ⟨c, rest.takeWhile (· != '\n'), ?_, hc⟩
  rw [List.takeWhile_append_of_pos hblank, List.takeWhile_cons, if_pos hne]

namespace Indented

variable {level : Nat} {cs ds : List Char}

theorem of_not_mem (h : '\n' ∉ cs) : Indented level cs := by
  rintro front back rfl
  exact absurd (List.mem_append_right _ List.mem_cons_self) h

theorem append (h : Indented level cs) (h' : Indented level ds) : Indented level (cs ++ ds) := by
  intro front back hsplit
  rcases List.append_eq_append_iff.1 hsplit with ⟨middle, rfl, hds⟩ | ⟨middle, hcs, hback⟩
  · exact h' middle back hds
  · cases middle with
    | nil => exact h' [] back hback.symm
    | cons d middle =>
      -- the line break stands in the first text, and the second only prolongs the line that it starts
      obtain ⟨rfl, rfl⟩ := List.cons.inj hback
      obtain ⟨c, rest, rfl, hc⟩ := h front middle hcs
      exact ⟨c, rest ++ ds, by simp, hc⟩

theorem mono (h : Indented (level + 1) cs) : Indented level cs := by
  intro front back hsplit
  obtain ⟨c, rest, rfl, _⟩ := h front back hsplit
  refine ⟨' ', "   ".toList ++ c :: rest, ?_, .inl rfl⟩
  rw [indent_succ, List.append_assoc]
  rfl

/-- A line break in front of a text that starts with the blanks of the level. -/
theorem newLine {c : Char} (hc : c = ' ' ∨ c = ']' ∨ c = '\x7d') (h : Indented level (indent level ++ c :: cs)) :
    Indented level ('\n' :: (indent level ++ c :: cs)) := by
  intro front back hsplit
  cases front with
  | nil =>
    obtain rfl := (List.cons.inj hsplit).2
    exact ⟨c, cs, rfl, hc⟩
  | cons d front => exact h front back (List.cons.inj hsplit).2

variable {members : List (List Char)} {opening closing : String}

theorem oneLine (ho : '\n' ∉ opening.toList) (hc : '\n' ∉ closing.toList) (h : ∀ x ∈ members, Indented level x) :
    Indented level (oneLine opening closing members) := by
  have hjoined : Indented level (joined ", " members) :=
    joined_of (of_not_mem List.not_mem_nil) append (of_not_mem (by decide)) h
  exact ((of_not_mem ho).append hjoined).append (of_not_mem hc)

/-- Members on lines of their own, each after its line break. -/
theorem memberLines (hne : members ≠ []) (h : ∀ x ∈ members, Indented level x) :
    Indented level ('\n' :: joined ",\n" (members.map (indent (level + 1) ++ ·))) := by
  have hline : ∀ x, Indented level x → Indented level ('\n' :: (indent (level + 1) ++ x)) := by
    intro x hx
    have hindent : Indented level (indent (level + 1)) := of_not_mem (not_mem_indent (by decide) _)
    have hall := hindent.append hx
    rw [indent_succ, List.append_assoc] at hall ⊢
    exact .newLine (.inl rfl) hall
  induction members with
  | nil => exact absurd rfl hne
  | cons x members ih =>
    obtain ⟨hx, hmembers⟩ := List.forall_mem_cons.1 h
    cases members with
    | nil => simpa [joined] using hline x hx
    | cons y ys =>
      have hcomma : Indented level [','] := of_not_mem (by decide)
      have hall := ((hline x hx).append hcomma).append (ih (List.cons_ne_nil _ _) hmembers)
      simpa [joined, List.intercalate_cons_cons] using hall

theorem manyLines (hne : members ≠ []) (ho : '\n' ∉ opening.toList)
    (hc : closing = "]" ∨ closing = "\x7d") (h : ∀ x ∈ members, Indented (level + 1) x) :
    Indented level (manyLines opening closing level members) := by
  have hclosing : Indented level ('\n' :: (indent level ++ closing.toList)) := by
    have hindent : Indented level (indent level) := of_not_mem (not_mem_indent (by decide) _)
    rcases hc with rfl | rfl
    · exact .newLine (.inr (.inl rfl)) (hindent.append (of_not_mem (by decide)))
    · exact .newLine (.inr (.inr rfl)) (hindent.append (of_not_mem (by decide)))
  have hall := ((of_not_mem ho).append (.memberLines hne fun x hx => (h x hx).mono)).append hclosing
  simpa [Script.manyLines] using hall

end Indented

theorem Expr.indented_render {e : Expr} (h : ∀ n ∈ e.nodes, n.Avoids '\n') :
    ∀ level, Indented level (e.render level) := by
  refine Expr.of_nodes (P := fun e => ∀ level, Indented level (e.render level)) ?_ e h
  intro e hname ih level
  have hargs : ∀ args : List Expr, (∀ x ∈ args, x ∈ e.parts) →
      Indented level (oneLine "(" ")" (renderItems level args)) := by
    intro args hparts
    rw [renderItems_eq_map]
    exact .oneLine (by decide) (by decide) (List.forall_mem_map.2 fun x hx => ih x (hparts x hx) level)
  cases e with
  | ident name => exact .of_not_mem (hname name rfl)
  | str text => exact .of_not_mem (not_mem_quote (by decide))
  | number value => exact .of_not_mem (not_mem_toText (by decide) (by decide) value)
  | bool value =>
    rw [render_bool]
    cases value <;> exact .of_not_mem (by decide)
  | null =>
    rw [render_null]
    exact .of_not_mem (by decide)
  | array items =>
    rw [render_array, renderItems_eq_map, renderItems_eq_map]
    split_ifs with hempty
    · exact .of_not_mem (by decide)
    · have hne : items.map (render (level + 1)) ≠ [] := by simpa using hempty
      exact .manyLines hne (by decide) (.inl rfl) (List.forall_mem_map.2 fun x hx => ih x hx (level + 1))
    · exact .oneLine (by decide) (by decide) (List.forall_mem_map.2 fun x hx => ih x hx level)
  | object fields =>
    have hfields : ∀ level, ∀ f ∈ fields, Indented level (keyText f.1 ++ ": ".toList ++ f.2.render level) := by
      intro level f hf
      have hcolon : Indented level ": ".toList := .of_not_mem (by decide)
      exact ((Indented.of_not_mem (not_mem_keyText f.1)).append hcolon).append (ih f.2 (List.mem_map_of_mem hf) level)
    rw [render_object, renderFields_eq_map, renderFields_eq_map]
    split_ifs with hempty
    · exact .of_not_mem (by decide)
    · have hne : fields.map (fun f => keyText f.1 ++ ": ".toList ++ f.2.render (level + 1)) ≠ [] := by simpa using hempty
      exact .manyLines hne (by decide) (.inr rfl) (List.forall_mem_map.2 (hfields (level + 1)))
    · exact .oneLine (by decide) (by decide) (List.forall_mem_map.2 (hfields level))
  | new className args =>
    have hclass : '\n' ∉ "new ".toList ++ className.toList := List.not_mem_append (by decide) (hname className rfl)
    exact (Indented.of_not_mem hclass).append (hargs args fun x hx => hx)
  | call callee args =>
    exact (ih callee List.mem_cons_self level).append (hargs args fun x hx => List.mem_cons_of_mem _ hx)
  | member owner property =>
    have hproperty := List.not_mem_cons_of_ne_of_not_mem (show '\n' ≠ '.' by decide) (hname property rfl)
    exact (ih owner List.mem_cons_self level).append (.of_not_mem hproperty)
  | await value =>
    have hawait : Indented level "await ".toList := .of_not_mem (by decide)
    exact hawait.append (ih value List.mem_cons_self level)

end Indentation

/-- The layout of an expression does not show in its text but for blanks: at all levels the text is, up to blanks and
line breaks outside of literals, the one that stands on a single line. No literal is broken, and each line after the
first starts with the blanks of the level. -/
theorem Expr.ink_render (e : Expr) (hquote : ∀ n ∈ e.nodes, n.Avoids '"') (hbreak : ∀ n ∈ e.nodes, n.Avoids '\n')
    (level other : Nat) :
    ink (e.render level) = ink (e.render other) ∧ ink (e.render level) = ink e.flat ∧ lines e.flat = [e.flat] ∧
      (∀ t, .literal t ∈ pieces (e.render level) → '\n' ∉ t ∧ '\r' ∉ t) ∧
      ∀ l ∈ (lines (e.render level)).tail, indent level <+: l := by
  have hlevel := sameInk_render hquote level
  have hother := sameInk_render hquote other
  refine ⟨hlevel.ink_eq.trans hother.ink_eq.symm, hlevel.ink_eq, lines_of_not_mem (not_mem_flat hbreak),
    hlevel.left.unbroken, ?_⟩
  intro l hl
  obtain ⟨c, rest, rfl, _⟩ := (indented_render hbreak level).of_mem_tail hl
  exact List.prefix_append _ _

/-- An object on seven lines, with a key that needs quotes and blanks in a text. -/
def folded : Expr := .object [("a b", .array [.new "Tool" [.str "x  y\n\""], .null]), ("c", .bool true)]

theorem ink_render_folded :
    (∀ n ∈ folded.nodes, n.Avoids '"') ∧ (∀ n ∈ folded.nodes, n.Avoids '\n') ∧ (lines (folded.render 1)).length = 7 ∧
      ink (folded.render 1) = ink (folded.render 3) ∧ ink (folded.render 1) = ink folded.flat ∧
      lines folded.flat = [folded.flat] ∧
      (∀ t, .literal t ∈ pieces (folded.render 1) → '\n' ∉ t ∧ '\r' ∉ t) ∧
      ∀ l ∈ (lines (folded.render 1)).tail, indent 1 <+: l :=
  ⟨by decide, by decide, by decide, Expr.ink_render folded (by decide) (by decide) 1 3⟩

end ChainCompiler.Script
