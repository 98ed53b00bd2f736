import ChainCompiler.Proofs.Lexical
import ChainCompiler.Proofs.Script.Literals
import ChainCompiler.Proofs.Script.Nodes

/-! The text of a script whose names are identifiers, whose numbers have no sign and whose comments are harmless is
sealed: all other texts that the script holds reach it through the quoter, in their order. -/

namespace ChainCompiler.Script

open ChainCompiler.Text

def keyTexts (key : String) : List String := if isBareKey key then [] else [key]

mutual

def Expr.texts : Expr → List String
  | .ident _ => []
  | .str text => [text]
  | .number _ => []
  | .bool _ => []
  | .null => []
  | .array items => itemTexts items
  | .object fields => fieldTexts fields
  | .new _ args => itemTexts args
  | .call callee args => callee.texts ++ itemTexts args
  | .member owner _ => owner.texts
  | .await value => value.texts

def itemTexts : List Expr → List String
  | [] => []
  | e :: es => e.texts ++ itemTexts es

def fieldTexts : List (String × Expr) → List String
  | [] => []
  | (key, e) :: fields => keyTexts key ++ e.texts ++ fieldTexts fields

end

mutual

def Stmt.texts : Stmt → List String
  | .imports _ source => [source]
  | .const _ value => value.texts
  | .expr value => value.texts
  | .result value => value.texts
  | .comment _ => []
  | .blank => []
  | .function _ _ body => textsOf body

def textsOf : List Stmt → List String
  | [] => []
  | s :: ss => s.texts ++ textsOf ss

end

theorem textsOf_append (ss us : List Stmt) : textsOf (ss ++ us) = textsOf ss ++ textsOf us := by
  induction ss with
  | nil => rfl
  | cons s ss ih => rw [List.cons_append, textsOf, textsOf, ih, List.append_assoc]

def Expr.name? : Expr → Option String
  | .ident name => some name
  | .new className _ => some className
  | .member _ property => some property
  | _ => none

mutual

def Stmt.binders : Stmt → List String
  | .imports names _ => names
  | .const name _ => [name]
  | .function name params body => name :: (params ++ bindersOf body)
  | .expr _ => []
  | .result _ => []
  | .comment _ => []
  | .blank => []

def bindersOf : List Stmt → List String
  | [] => []
  | s :: ss => s.binders ++ bindersOf ss

end

def namesOf (ss : List Stmt) : List String := bindersOf ss ++ (nodesOf ss).filterMap Expr.name?

def IsIdentifier (name : String) : Prop := isIdentifier name.toList = true

instance (name : String) : Decidable (IsIdentifier name) := inferInstanceAs (Decidable (_ = true))

/-- A node whose name is an identifier, or whose number has a harmless text. -/
def Expr.Clean : Expr → Prop
  | .ident name => IsIdentifier name
  | .new className _ => IsIdentifier className
  | .member _ property => IsIdentifier property
  | .number value => Harmless value.toText.toList
  | _ => True

theorem Expr.Clean.isIdentifier {n : Expr} (h : n.Clean) : ∀ name ∈ n.name?, IsIdentifier name := by
  intro name hname
  cases n with
  | ident _ | new _ _ | member _ _ =>
    cases hname
    exact h
  | _ => cases hname

def CleanAll (es : List Expr) : Prop := ∀ n ∈ itemNodes es, n.Clean

@[simp] theorem cleanAll_nil : CleanAll [] := by simp [CleanAll, itemNodes]

@[simp] theorem cleanAll_append {es fs : List Expr} : CleanAll (es ++ fs) ↔ CleanAll es ∧ CleanAll fs := by
  rw [CleanAll, itemNodes_append, List.forall_mem_append]
  rfl

theorem cleanAll_cons {e : Expr} {es : List Expr} : CleanAll (e :: es) ↔ e.Clean ∧ CleanAll (e.parts ++ es) := by
  simp only [CleanAll, mem_itemNodes_cons, forall_eq_or_imp]

namespace CleanAll

variable {e : Expr} {name : String} {args es : List Expr}

theorem ident (h : IsIdentifier name) (hes : CleanAll es) : CleanAll (.ident name :: es) := cleanAll_cons.2 ⟨h, hes⟩

theorem str {text : String} (hes : CleanAll es) : CleanAll (.str text :: es) := cleanAll_cons.2 ⟨trivial, hes⟩

theorem new (h : IsIdentifier name) (hes : CleanAll (args ++ es)) : CleanAll (.new name args :: es) :=
  cleanAll_cons.2 ⟨h, hes⟩

theorem member (h : IsIdentifier name) (hes : CleanAll (e :: es)) : CleanAll (.member e name :: es) :=
  cleanAll_cons.2 ⟨h, hes⟩

theorem method (h : IsIdentifier name) (hes : CleanAll (e :: (args ++ es))) : CleanAll (e.method name args :: es) :=
  cleanAll_cons.2 ⟨trivial, .member h hes⟩

theorem parts (h : CleanAll [e]) : CleanAll e.parts := (cleanAll_append.1 (cleanAll_cons.1 h).2).1

end CleanAll

theorem cleanAll_flatMap {α : Type} {xs : List α} {f : α → List Expr} :
    CleanAll (xs.flatMap f) ↔ ∀ x ∈ xs, CleanAll (f x) := by
  induction xs with
  | nil => simp
  | cons x xs ih => rw [List.flatMap_cons, cleanAll_append, ih, List.forall_mem_cons]

theorem cleanAll_of_perm {es fs : List Expr} (h : es.Perm fs) : CleanAll es ↔ CleanAll fs := by
  simp only [CleanAll, mem_itemNodes_of_perm h]

inductive Stmt.Clean : Stmt → Prop
  | imports {names source} : (∀ name ∈ names, IsIdentifier name) → Clean (.imports names source)
  | const {name value} : IsIdentifier name → CleanAll [value] → Clean (.const name value)
  | expr {value} : CleanAll [value] → Clean (.expr value)
  | result {value} : CleanAll [value] → Clean (.result value)
  | comment {text} : Harmless text.toList → Clean (.comment text)
  | blank : Clean .blank
  | function {name params body} :
      IsIdentifier name → (∀ name ∈ params, IsIdentifier name) → (∀ s ∈ body, Clean s) →
        Clean (.function name params body)

theorem harmless_of_isKeyChar {c : Char} (h : isKeyChar c = true) : isHarmless c = true := by
  simp only [isKeyChar, Bool.or_eq_true, beq_iff_eq] at h
  rcases h with (h | rfl) | rfl
  · rw [isHarmless, h, Bool.true_or]
  · decide
  · decide

theorem harmless_of_isIdentifier {name : String} (h : IsIdentifier name) : Harmless name.toList := by
  intro c hc
  apply harmless_of_isKeyChar
  rw [isKeyChar, Bool.or_eq_true]
  exact .inl (isWordChar_of_isIdentifier h c hc)

theorem sealed_name {name : String} (h : IsIdentifier name) : Sealed name.toList [] :=
  .harmless (harmless_of_isIdentifier h)

theorem isKeyChar_of_isBareKey {key : String} (h : isBareKey key = true) : ∀ c ∈ key.toList, isKeyChar c = true := by
  intro c hc
  unfold isBareKey at h
  split at h
  · cases h
  · next d ds hkey =>
    rw [Bool.and_eq_true, List.all_eq_true] at h
    rw [hkey] at hc
    rcases List.mem_cons.1 hc with rfl | hc
    · simp only [isKeyStart, isKeyChar, Char.isAlphanum, Bool.or_eq_true] at h ⊢
      rcases h.1 with (h | h) | h <;> simp [h]
    · exact h.2 c hc

theorem sealed_keyText (key : String) : Sealed (keyText key) (keyTexts key) := by
  unfold keyText keyTexts
  split
  · next hbare => exact .harmless fun c hc => harmless_of_isKeyChar (isKeyChar_of_isBareKey hbare c hc)
  · exact .quote key

theorem sealed_word (word : String) (h : Harmless word.toList) : Sealed word.toList [] := .harmless h

theorem Sealed.append_harmless {cs back : List Char} {ts : List String} (h : Sealed cs ts) (hback : Harmless back) :
    Sealed (cs ++ back) ts := by
  have hall := h.append (.harmless hback)
  rwa [List.append_nil] at hall

theorem harmless_indent (level : Nat) : Harmless (indent level) := by
  intro c hc
  rw [List.eq_of_mem_replicate hc]
  decide

theorem SealedAll.indented {members : List (List Char)} {ts : List String} (h : SealedAll members ts) (level : Nat) :
    SealedAll (members.map (indent level ++ ·)) ts := by
  induction h with
  | nil => exact .nil
  | cons hcs _ ih => exact .cons (.append (.harmless (harmless_indent level)) hcs) ih

section Brackets

variable {opening closing : String} {members : List (List Char)} {ts : List String} (h : SealedAll members ts)
  (hopening : Harmless opening.toList) (hclosing : Harmless closing.toList)
include h hopening hclosing

theorem SealedAll.oneLine : Sealed (oneLine opening closing members) ts :=
  ((Sealed.harmless hopening).append (h.joined (by decide))).append_harmless hclosing

theorem SealedAll.manyLines (level : Nat) : Sealed (manyLines opening closing level members) ts := by
  have hjoined : Sealed (Script.joined ",\n" (members.map (indent (level + 1) ++ ·))) ts :=
    (h.indented (level + 1)).joined (by decide)
  have hfront : Sealed ('\n' :: Script.joined ",\n" (members.map (indent (level + 1) ++ ·))) ts :=
    (sealed_word "\n" (by decide)).append hjoined
  have hback : Harmless ('\n' :: indent level) := harmless_cons.2 ⟨by decide, harmless_indent level⟩
  exact (((Sealed.harmless hopening).append hfront).append_harmless hback).append_harmless hclosing

end Brackets

mutual

theorem sealed_render : ∀ (e : Expr) (level : Nat), CleanAll [e] → Sealed (e.render level) e.texts
  | .ident _, _, h => sealed_name (cleanAll_cons.1 h).1
  | .str text, _, _ => .quote text
  | .number _, _, h => .harmless (cleanAll_cons.1 h).1
  | .bool true, _, _ => sealed_word "true" (by decide)
  | .bool false, _, _ => sealed_word "false" (by decide)
  | .null, _, _ => sealed_word "null" (by decide)
  | .array items, level, h => by
    have hitems : CleanAll items := h.parts
    rw [Expr.render_array]
    split
    · next hempty =>
      rw [List.isEmpty_iff.1 hempty]
      exact .harmless (by decide)
    · split
      · exact (sealed_items items (level + 1) hitems).manyLines (by decide) (by decide) level
      · exact (sealed_items items level hitems).oneLine (by decide) (by decide)
  | .object fields, level, h => by
    have hfields : CleanAll (fields.map Prod.snd) := h.parts
    rw [Expr.render_object]
    split
    · next hempty =>
      rw [List.isEmpty_iff.1 hempty]
      exact .harmless (by decide)
    · split
      · exact (sealed_fields fields (level + 1) hfields).manyLines (by decide) (by decide) level
      · exact (sealed_fields fields level hfields).oneLine (by decide) (by decide)
  | .new className args, level, h => by
    have hname := (sealed_word "new " (by decide)).append (sealed_name (cleanAll_cons.1 h).1)
    exact hname.append ((sealed_items args level h.parts).oneLine (by decide) (by decide))
  | .call callee args, level, h => by
    obtain ⟨hcallee, hargs⟩ : CleanAll [callee] ∧ CleanAll args := cleanAll_append.1 h.parts
    exact (sealed_render callee level hcallee).append ((sealed_items args level hargs).oneLine (by decide) (by decide))
  | .member owner property, level, h => by
    have hproperty := harmless_of_isIdentifier (cleanAll_cons.1 h).1
    exact (sealed_render owner level h.parts).append_harmless (harmless_cons.2 ⟨by decide, hproperty⟩)
  | .await value, level, h => (sealed_word "await " (by decide)).append (sealed_render value level h.parts)

theorem sealed_items : ∀ (es : List Expr) (level : Nat), CleanAll es → SealedAll (renderItems level es) (itemTexts es)
  | [], _, _ => .nil
  | e :: es, level, h => by
    obtain ⟨he, hes⟩ : CleanAll [e] ∧ CleanAll es := cleanAll_append.1 h
    exact .cons (sealed_render e level he) (sealed_items es level hes)

theorem sealed_fields : ∀ (fields : List (String × Expr)) (level : Nat), CleanAll (fields.map Prod.snd) →
    SealedAll (renderFields level fields) (fieldTexts fields)
  | [], _, _ => .nil
  | (key, e) :: fields, level, h => by
    obtain ⟨he, hfields⟩ : CleanAll [e] ∧ CleanAll (fields.map Prod.snd) := cleanAll_append.1 h
    have hkey : Sealed (keyText key ++ ": ".toList) (keyTexts key) := (sealed_keyText key).append_harmless (by decide)
    exact .cons (hkey.append (sealed_render e level he)) (sealed_fields fields level hfields)

end

theorem sealed_names {ns : List String} (h : ∀ name ∈ ns, IsIdentifier name) : Sealed (names ns) [] := by
  have hall : SealedAll (ns.map String.toList) (ns.flatMap fun _ => []) :=
    .map fun name hname => sealed_name (h name hname)
  have hjoined : Sealed (names ns) (ns.flatMap fun _ => []) := hall.joined (by decide)
  rwa [List.flatMap_eq_nil_iff.2 (by simp)] at hjoined

theorem SealedAll.single {cs : List Char} {ts : List String} (h : Sealed cs ts) : SealedAll [cs] ts := by
  have hall := SealedAll.cons h .nil
  rwa [List.append_nil] at hall

theorem sealed_linesOf {ss : List Stmt} {level : Nat} (h : ∀ s ∈ ss, SealedAll (s.lines level) s.texts) :
    SealedAll (linesOf level ss) (textsOf ss) := by
  induction ss with
  | nil => exact .nil
  | cons s ss ih =>
    obtain ⟨hs, hss⟩ := List.forall_mem_cons.1 h
    exact hs.append (ih hss)

theorem sealed_lines {s : Stmt} (h : s.Clean) (level : Nat) : SealedAll (s.lines level) s.texts := by
  have hsemicolon : Harmless [';'] := by decide
  induction h generalizing level with
  | @imports _ source hnames =>
    have hindent := Sealed.harmless (harmless_indent level)
    have hfront := (hindent.append (sealed_word "import \x7b " (by decide))).append (sealed_names hnames)
    have hsource := (hfront.append (sealed_word " \x7d from " (by decide))).append (.quote source)
    exact .single (hsource.append_harmless hsemicolon)
  | @const _ value hname hvalue =>
    have hindent := Sealed.harmless (harmless_indent level)
    have hfront := (hindent.append (sealed_word "const " (by decide))).append (sealed_name hname)
    have hrender := (hfront.append (sealed_word " = " (by decide))).append (sealed_render value level hvalue)
    exact .single (hrender.append_harmless hsemicolon)
  | @expr value hvalue =>
    have hindent := Sealed.harmless (harmless_indent level)
    exact .single ((hindent.append (sealed_render value level hvalue)).append_harmless hsemicolon)
  | @result value hvalue =>
    have hindent := Sealed.harmless (harmless_indent level)
    have hrender := (hindent.append (sealed_word "return " (by decide))).append (sealed_render value level hvalue)
    exact .single (hrender.append_harmless hsemicolon)
  | comment htext =>
    have hindent := Sealed.harmless (harmless_indent level)
    exact .single ((hindent.append (sealed_word "// " (by decide))).append (.harmless htext))
  | blank => exact .single .nil
  | @function name params body hname hparams _ ih =>
    have hindent := Sealed.harmless (harmless_indent level)
    have hfront := (hindent.append (sealed_word "export async function " (by decide))).append (sealed_name hname)
    have hnames := hfront.append ((sealed_word "(" (by decide)).append (sealed_names hparams))
    have hhead := hnames.append (sealed_word ") \x7b" (by decide))
    have hend : SealedAll [indent level ++ "\x7d".toList] [] :=
      .single (hindent.append (sealed_word "\x7d" (by decide)))
    have hbody := (sealed_linesOf fun s hs => ih s hs (level + 1)).append hend
    rw [List.append_nil] at hbody
    exact .cons hhead hbody

theorem sealed_text {ss : List Stmt} (h : ∀ s ∈ ss, s.Clean) : Sealed (text ss).toList (textsOf ss) := by
  have hlines := sealed_linesOf fun s hs => sealed_lines (h s hs) 0
  rw [text, String.toList_ofList]
  exact hlines.joined (by decide)

theorem bindersOf_eq_flatMap (ss : List Stmt) : bindersOf ss = ss.flatMap Stmt.binders := by
  induction ss with
  | nil => rfl
  | cons s ss ih => rw [bindersOf, ih, List.flatMap_cons]

theorem cleanAll_exprsOf {ss : List Stmt} : CleanAll (exprsOf ss) ↔ ∀ s ∈ ss, CleanAll s.exprs := by
  rw [exprsOf_eq_flatMap, cleanAll_flatMap]

/-- What a clean statement declares are identifiers, and all nodes in it are clean. -/
theorem Stmt.Clean.parts {s : Stmt} (h : s.Clean) : (∀ name ∈ s.binders, IsIdentifier name) ∧ CleanAll s.exprs := by
  induction h with
  | imports hnames => exact ⟨hnames, cleanAll_nil⟩
  | const hname hvalue => exact ⟨by simpa [Stmt.binders] using hname, hvalue⟩
  | expr hvalue => exact ⟨by simp [Stmt.binders], hvalue⟩
  | result hvalue => exact ⟨by simp [Stmt.binders], hvalue⟩
  | comment _ => exact ⟨by simp [Stmt.binders], cleanAll_nil⟩
  | blank => exact ⟨by simp [Stmt.binders], cleanAll_nil⟩
  | function hname hparams _ ih =>
    refine ⟨List.forall_mem_cons.2 ⟨hname, List.forall_mem_append.2 ⟨hparams, fun name hname => ?_⟩⟩, ?_⟩
    · rw [bindersOf_eq_flatMap] at hname
      obtain ⟨s, hs, hname⟩ := List.mem_flatMap.1 hname
      exact (ih s hs).1 name hname
    · exact cleanAll_exprsOf.2 fun s hs => (ih s hs).2

/-- All names in clean statements are identifiers. -/
theorem isIdentifier_of_mem_namesOf {ss : List Stmt} (h : ∀ s ∈ ss, s.Clean) :
    ∀ name ∈ namesOf ss, IsIdentifier name := by
  refine List.forall_mem_append.2 ⟨fun name hname => ?_, fun name hname => ?_⟩
  · rw [bindersOf_eq_flatMap] at hname
    obtain ⟨s, hs, hname⟩ := List.mem_flatMap.1 hname
    exact (h s hs).parts.1 name hname
  · obtain ⟨n, hn, hname⟩ := List.mem_filterMap.1 hname
    have hclean : CleanAll (exprsOf ss) := cleanAll_exprsOf.2 fun s hs => (h s hs).parts.2
    exact (hclean n hn).isIdentifier name hname

end ChainCompiler.Script
