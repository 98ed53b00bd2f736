import ChainCompiler.Proofs.Lowering.Run
import ChainCompiler.Proofs.Recognition
import ChainCompiler.Proofs.Spelling

/-! Data: strings, truth values, names, lists and objects. Lowering takes data to script data and leaves the scope
alone, and the text of script data, however its lines are broken, is read back as the data it was made from. -/

namespace ChainCompiler

open Text Grammar

/-- A key whose text is read back: quoted, or a word. A bare key with a dollar sign in it would be no word. -/
def IsDataKey (key : String) : Prop :=
  (∀ c ∈ key.toList, Readable c) ∧ ¬ (Script.isBareKey key = true ∧ '$' ∈ key.toList)

theorem readable_of_all {text : String} (h : text.toList.all (fun c => decide (Readable c)) = true) :
    ∀ c ∈ text.toList, Readable c := fun c hc => of_decide_eq_true (List.all_eq_true.1 h c hc)

instance (key : String) : Decidable (IsDataKey key) :=
  decidable_of_iff (key.toList.all (fun c => decide (Readable c)) = true ∧
    ¬ (Script.isBareKey key = true ∧ '$' ∈ key.toList)) (by simp [IsDataKey])

inductive IsData : Expr → Prop
  | string {text} : (∀ c ∈ text.toList, Readable c) → IsData (.string text)
  | boolean {b} : IsData (.boolean b)
  | identifier {name} : IsFreeName name → name ≠ "true" → name ≠ "false" → IsData (.identifier name)
  | list {items} : (∀ e ∈ items, IsData e) → IsData (.list items)
  | object {entries} : (entries.map Prod.fst).Nodup → (∀ x ∈ entries, IsDataKey x.1) → (∀ x ∈ entries, IsData x.2) →
      IsData (.object entries)

/-- The expression lowers to `v` in every scope, and the text of `v` at every level is one of its phrases. -/
structure Writes (e : Expr) (v : Script.Expr) : Prop where
  lowers : ∀ s, e.lowerValue s = (.ok v, s)
  spells : ∀ level, Spells Ends (v.render level) (Value · e)

theorem Spells.ends {cs : List Char} {L : List Token → Prop} (h : Spells Anything cs L) : Spells Ends cs L :=
  fun pos rest _ => h pos rest trivial

theorem writes_string {text : String} (h : ∀ c ∈ text.toList, Readable c) : Writes (.string text) (.str text) := by
  refine ⟨fun s => rfl, fun level => ?_⟩
  rw [Script.Expr.render_str]
  refine (spells_quote h).imp ?_
  rintro _ ⟨t, rfl, hkind, rfl⟩
  exact .of (.atom (.string hkind))

theorem isFreeName_true : IsFreeName "true" := ⟨by decide, fun k => by cases k <;> decide⟩

theorem isFreeName_false : IsFreeName "false" := ⟨by decide, fun k => by cases k <;> decide⟩

theorem writes_boolean (b : Bool) : Writes (.boolean b) (.bool b) := by
  refine ⟨fun s => rfl, fun level => ?_⟩
  rw [Script.Expr.render_bool]
  cases b
  · refine (spells_name isFreeName_false).imp ?_
    rintro _ ⟨t, rfl, hkind, htext⟩
    exact .of (.atom (.false hkind htext))
  · refine (spells_name isFreeName_true).imp ?_
    rintro _ ⟨t, rfl, hkind, htext⟩
    exact .of (.atom (.true hkind htext))

theorem isEndpoint_of_isFreeName {name : String} (h : IsFreeName name) : Lower.isEndpoint name = false := by
  have hinput := h.2 .input
  have houtput := h.2 .stringOutput
  simp_all [Lower.isEndpoint, Keyword.spelling]

theorem writes_identifier {name : String} (h : IsFreeName name) (htrue : name ≠ "true") (hfalse : name ≠ "false") :
    Writes (.identifier name) (.ident name) := by
  constructor
  · intro s
    have hreference : Lower.reference name false s = (.ok (.ident name), s) := by
      rw [Lower.reference, if_neg (by simp [isEndpoint_of_isFreeName h])]
      rfl
    rwa [Expr.lowerValue]
  · intro level
    rw [Script.Expr.render_ident]
    refine (spells_name h).imp ?_
    rintro _ ⟨t, rfl, hkind, rfl⟩
    exact .of (.atom (.identifier hkind htrue hfalse))

theorem lowerItems_of_writes {items : List Expr} {vs : List Script.Expr} (h : List.Forall₂ Writes items vs)
    (s : Scope) : lowerItems items s = (.ok vs, s) := by
  induction h with
  | nil => rfl
  | cons hv _ ih =>
    rw [lowerItems, Lower.bind_of_ok _ (hv.lowers s), Lower.bind_of_ok _ ih]
    rfl

theorem spells_items {items : List Expr} {vs : List Script.Expr} (h : List.Forall₂ Writes items vs) (level : Nat) :
    List.Forall₂ (fun m x => Spells Ends m (Value · x)) (Script.renderItems level vs) items := by
  rw [Script.renderItems_eq_map, List.forall₂_map_left_iff]
  exact h.flip.imp fun v e hv => hv.spells level

theorem writes_list {items : List Expr} {vs : List Script.Expr} (h : List.Forall₂ Writes items vs) :
    Writes (.list items) (.array vs) := by
  constructor
  · intro s
    rw [Expr.lowerValue, Lower.bind_of_ok _ (lowerItems_of_writes h s)]
    rfl
  intro level
  have hclose : ∀ rest, Ends (']' :: rest) := ends_cons (by decide)
  have hphrase : Spells Ends ((Script.Expr.array vs).render level)
      (Bracketed .lbracket .rbracket (Members Value) · items) := by
    rw [Script.Expr.render_array]
    split_ifs with hempty hlines
    · obtain rfl := List.isEmpty_iff.1 hempty
      cases h
      exact (spells_empty spells_lbracket spells_rbracket fun _ => trivial).ends
    · have hne : Script.renderItems (level + 1) vs ≠ [] := by
        simpa [Script.renderItems_eq_map] using hempty
      exact (spells_manyLines spells_lbracket spells_rbracket hclose rfl rfl level (spells_items h (level + 1)) hne
        fun _ => trivial).ends
    · have hne : Script.renderItems level vs ≠ [] := by
        simpa [Script.renderItems_eq_map] using hempty
      have hnone : IsGap [] := by simp [IsGap]
      exact (spells_oneLine spells_lbracket spells_rbracket hclose rfl rfl hnone hnone (spells_items h level) hne
        fun _ => trivial).ends
  exact hphrase.imp fun ts hts => .of (.list hts)

theorem isIdentifier_of_isBareKey {key : String} (h : Script.isBareKey key = true) (hdollar : '$' ∉ key.toList) :
    isIdentifier key.toList = true := by
  unfold Script.isBareKey at h
  generalize key.toList = cs at h hdollar
  rcases cs with _ | ⟨c, cs⟩
  · cases h
  simp only [List.mem_cons, not_or] at hdollar
  simp only [Bool.and_eq_true, List.all_eq_true] at h
  have hstart : isWordStart c = true := by simpa [Script.isKeyStart, isWordStart, Ne.symm hdollar.1] using h.1
  have hword : ∀ d ∈ cs, isWordChar d = true := by
    intro d hd
    have hne : d ≠ '$' := by
      rintro rfl
      exact hdollar.2 hd
    simpa [Script.isKeyChar, isWordChar, hne] using h.2 d hd
  rw [isIdentifier, Bool.and_eq_true, List.all_eq_true]
  exact ⟨hstart, hword⟩

theorem spells_key {key : String} (h : IsDataKey key) :
    Spells Ends (Script.keyText key) fun ts => ∃ t, ts = [t] ∧ Key t key := by
  obtain ⟨hreadable, hdollar⟩ := h
  unfold Script.keyText
  split_ifs with hbare
  · refine (spells_word (isIdentifier_of_isBareKey hbare fun hmem => hdollar ⟨hbare, hmem⟩)).imp ?_
    rintro _ ⟨t, rfl, hname, rfl⟩
    exact ⟨t, rfl, .name hname⟩
  · refine (spells_quote hreadable).imp ?_
    rintro _ ⟨t, rfl, hkind, rfl⟩
    exact ⟨t, rfl, .string hkind⟩

def WritesEntry (x : String × Expr) (f : String × Script.Expr) : Prop := f.1 = x.1 ∧ IsDataKey x.1 ∧ Writes x.2 f.2

theorem lowerEntries_of_writes {entries : List (String × Expr)} {fields : List (String × Script.Expr)}
    (h : List.Forall₂ WritesEntry entries fields) (s : Scope) : lowerEntries entries s = (.ok fields, s) := by
  induction h with
  | nil => rfl
  | @cons x f entries fields hf _ ih =>
    obtain ⟨key, e⟩ := x
    obtain ⟨key', v⟩ := f
    obtain ⟨rfl, -, hv⟩ := hf
    rw [lowerEntries, Lower.bind_of_ok _ (hv.lowers s), Lower.bind_of_ok _ ih]
    rfl

theorem spells_entry {x : String × Expr} {f : String × Script.Expr} (h : WritesEntry x f) (level : Nat) :
    Spells Ends (Script.keyText f.1 ++ ": ".toList ++ f.2.render level) (ObjectEntry Value · x) := by
  obtain ⟨key, e⟩ := x
  obtain ⟨hkey, hdata, hv⟩ := h
  have hcolon := spells_colon.append (hv.spells level).blank fun _ _ => trivial
  have hall := (spells_key hdata).append hcolon fun rest _ => ends_cons (by decide) _
  have htext : Script.keyText f.1 ++ ": ".toList ++ f.2.render level =
      Script.keyText key ++ ([':'] ++ ' ' :: f.2.render level) := by
    simp [show f.1 = key from hkey]
  rw [htext]
  refine hall.imp ?_
  rintro _ ⟨_, _, rfl, ⟨t, rfl, ht⟩, _, ts, rfl, ⟨colon, rfl, hkind⟩, hts⟩
  exact .mk ht (.inl hkind) hts

theorem spells_fields {entries : List (String × Expr)} {fields : List (String × Script.Expr)}
    (h : List.Forall₂ WritesEntry entries fields) (level : Nat) :
    List.Forall₂ (fun m x => Spells Ends m (ObjectEntry Value · x)) (Script.renderFields level fields) entries := by
  rw [Script.renderFields_eq_map, List.forall₂_map_left_iff]
  exact h.flip.imp fun f x hf => spells_entry hf level

theorem writes_object {entries : List (String × Expr)} {fields : List (String × Script.Expr)}
    (h : List.Forall₂ WritesEntry entries fields) (hkeys : (entries.map Prod.fst).Nodup) :
    Writes (.object entries) (.object fields) := by
  constructor
  · intro s
    rw [Expr.lowerValue, Lower.bind_of_ok _ (lowerEntries_of_writes h s)]
    rfl
  intro level
  have hclose : ∀ rest, Ends ('\x7d' :: rest) := ends_cons (by decide)
  have hphrase : Spells Ends ((Script.Expr.object fields).render level)
      (Bracketed .lbrace .rbrace (Members (ObjectEntry Value)) · entries) := by
    rw [Script.Expr.render_object]
    split_ifs with hempty hlines
    · obtain rfl := List.isEmpty_iff.1 hempty
      cases h
      exact (spells_empty spells_lbrace spells_rbrace fun _ => by simp).ends
    · have hne : Script.renderFields (level + 1) fields ≠ [] := by
        simpa [Script.renderFields_eq_map] using hempty
      exact (spells_manyLines spells_lbrace spells_rbrace hclose rfl rfl level (spells_fields h (level + 1)) hne
        fun _ => by simp).ends
    · have hne : Script.renderFields level fields ≠ [] := by
        simpa [Script.renderFields_eq_map] using hempty
      have hspace : IsGap [' '] := by simp [IsGap]
      exact (spells_oneLine spells_lbrace spells_rbrace hclose rfl rfl hspace hspace (spells_fields h level) hne
        fun _ => by simp).ends
  refine hphrase.imp ?_
  rintro _ ⟨ho, hnl, hmembers, hc⟩
  exact .of (.object (.mk ho hnl (.mk hmembers hkeys) hc))

theorem exists_forall₂ {α β : Type} {R : α → β → Prop} {xs : List α} (h : ∀ x ∈ xs, ∃ y, R x y) :
    ∃ ys, List.Forall₂ R xs ys := by
  induction xs with
  | nil => exact ⟨[], .nil⟩
  | cons x xs ih =>
    obtain ⟨y, hy⟩ := h x (by simp)
    obtain ⟨ys, hys⟩ := ih fun z hz => h z (by simp [hz])
    exact ⟨y :: ys, .cons hy hys⟩

/-- All data is written as script data. -/
theorem exists_writes {e : Expr} (h : IsData e) : ∃ v, Writes e v := by
  induction h with
  | string htext => exact ⟨_, writes_string htext⟩
  | boolean => exact ⟨_, writes_boolean _⟩
  | identifier hname htrue hfalse => exact ⟨_, writes_identifier hname htrue hfalse⟩
  | list _ ih =>
    obtain ⟨vs, hvs⟩ := exists_forall₂ ih
    exact ⟨_, writes_list hvs⟩
  | @object entries hkeys hdata _ ih =>
    have hentries : ∀ x ∈ entries, ∃ f, WritesEntry x f := by
      intro x hx
      obtain ⟨v, hv⟩ := ih x hx
      exact ⟨(x.1, v), rfl, hdata x hx, hv⟩
    obtain ⟨fields, hfields⟩ := exists_forall₂ hentries
    exact ⟨_, writes_object hfields hkeys⟩

namespace Program

/-- A definition of `x` by a text that spells a value. -/
theorem ofSource_definition {cs : List Char} {e : Expr} (h : Spells Ends cs (Value · e)) :
    ofSource ("def x = " ++ String.ofList cs) = .ok [⟨"x", 1, .definition e⟩] := by
  have hx : IsFreeName "x" := ⟨by decide, fun k => by cases k <;> decide⟩
  have hassign := spells_assign.append h.blank fun rest _ => by simp
  have hname := (spells_name hx).append hassign.blank fun rest _ => ends_cons (by decide) _
  -- the keyword is scanned on its own, since its place gives the statement its line
  let more : List Char := ' ' :: ("x".toList ++ ' ' :: (['='] ++ ' ' :: cs))
  have hsource : ("def x = " ++ String.ofList cs).toList = Keyword.defKw.spelling.toList ++ more := by
    simp [more, Keyword.spelling]
  have hdef : Token.scan .start 0 (Keyword.defKw.spelling.toList ++ more) =
      (Token.scan ⟨1, 4⟩ 0 more).map (Rule.keyword.emit Keyword.defKw.spelling.toList .start ++ ·) :=
    Token.scan_lexeme (by decide) (first?_keyword .defKw (ends_cons (by decide) _))
  obtain ⟨_, ⟨_, _, rfl, ⟨name, rfl, hkind, htext⟩, _, ts, rfl, ⟨assign, rfl, hsign⟩, hts⟩, hmore⟩ :=
    hname.blank ⟨1, 4⟩ [] (by simp [Ends, Stops])
  rw [List.append_nil] at hmore
  rw [emit_keyword, hmore] at hdef
  have htokens : Token.tokenize ("def x = " ++ String.ofList cs) =
      .ok ((⟨.keyword .defKw, "def", .start⟩ :: name :: assign :: ts) ++ [.eofAt (Position.after ⟨1, 4⟩ more)]) := by
    rw [Token.tokenize, hsource, hdef]
    simp [Token.scan, Except.map, Keyword.spelling, more]
  have hsentence : Sentences ((⟨.keyword .defKw, "def", .start⟩ :: name :: assign :: ts) ++ [])
      [⟨name.text, 1, .definition e⟩] := .cons (.definition rfl hkind hsign (.value hts)) .nil
  rw [List.append_nil, htext] at hsentence
  rw [ofSource, htokens]
  dsimp only
  rw [ofTokens_of_sentences hsentence rfl]
  rfl

/-- Lowering takes data to a script expression without touching the scope, and the text of that expression defines the
same data. So the text determines the data. -/
theorem ofSource_text_of_isData {e : Expr} (h : IsData e) :
    ∃ v, (∀ s, e.lowerValue s = (.ok v, s)) ∧ ofSource ("def x = " ++ v.text) = .ok [⟨"x", 1, .definition e⟩] ∧
      ∀ e' v' s t, IsData e' → e'.lowerValue s = (.ok v', t) → v'.text = v.text → e' = e := by
  obtain ⟨v, hv⟩ := exists_writes h
  have hread := ofSource_definition (hv.spells 0)
  refine ⟨v, hv.lowers, hread, ?_⟩
  intro e' v' s t h' hlower htext
  obtain ⟨w, hw⟩ := exists_writes h'
  obtain rfl : w = v' := by
    have := (hw.lowers s).symm.trans hlower
    simpa using congrArg Prod.fst this
  have hread' := ofSource_definition (hw.spells 0)
  change ofSource ("def x = " ++ w.text) = _ at hread'
  change ofSource ("def x = " ++ v.text) = _ at hread
  rw [htext, hread] at hread'
  simpa using hread'.symm

def sampleData : Expr :=
  .object [("def", .list [.string "a\"b\\\n", .boolean true, .object []]), ("a b", .identifier "y"), ("", .string "")]

def sampleText : String :=
  "\x7b\n    def: [\"a\\\"b\\\\\\n\", true, \x7b\x7d],\n    \"a b\": y,\n    \"\": \"\"\n\x7d"

theorem ofSource_text_sampleData :
    IsData sampleData ∧ ofSource ("def x = " ++ sampleText) = .ok [⟨"x", 1, .definition sampleData⟩] := by
  have hy : IsFreeName "y" := ⟨by decide, fun k => by cases k <;> decide⟩
  have hempty : IsData (.object []) := .object (by simp) (by simp) (by simp)
  have hlist : IsData (.list [.string "a\"b\\\n", .boolean true, .object []]) := by
    refine .list (List.forall_mem_cons.2 ⟨.string (readable_of_all (by decide)), List.forall_mem_cons.2 ⟨.boolean, ?_⟩⟩)
    simpa using hempty
  have hdata : IsData sampleData := by
    refine .object (by decide) (by decide) ?_
    simp only [List.forall_mem_cons]
    exact ⟨hlist, .identifier hy (by decide) (by decide), .string (readable_of_all (by decide)), by simp⟩
  obtain ⟨v, hlower, hread, -⟩ := ofSource_text_of_isData hdata
  have htext : v.text = sampleText := by
    have hv := congrArg Prod.fst (hlower ⟨[], [], [], 0, [], "", 0⟩)
    cases hv
    rfl
  rw [htext] at hread
  exact ⟨hdata, hread⟩

end Program

end ChainCompiler
