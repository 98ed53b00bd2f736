import ChainCompiler.Proofs.Shift.Basic

/-! The expression parsers track themselves under any two bounds that exceed the tokens left. -/

namespace ChainCompiler.Parser

variable {α : Type} {k ℓ : Nat}

/-- Where fewer than `ℓ` tokens are left, `Q` tracks `P`, and `P` passes a token at least. -/
def TracksBelow (k ℓ : Nat) (P Q : Parser α) : Prop :=
  ∀ c : Cursor, c.Closed → c.rest.length < ℓ → Tracks k 1 (fun a => a) P Q c

theorem members_tracks {member member' : List α → Parser α}
    (h : ∀ before, TracksBelow k ℓ (member before) (member' before)) (close : Mark) (want : Want) (n : Nat) :
    ∀ (m : Nat) (before : List α) {c : Cursor}, c.Closed → c.rest.length < ℓ → c.rest.length < n → c.rest.length < m →
      Tracks k 0 (fun xs => xs) (members member close want n before) (members member' close want m before) c := by
  induction n with
  | zero => intro m before c _ _ hn; omega
  | succ n ih =>
    intro m before c hc hℓ hn hm
    obtain ⟨m, rfl⟩ : ∃ j, m = j + 1 := ⟨m - 1, by omega⟩
    simp only [members]
    refine .ifAt (fun _ => .pure hc _) fun _ => ?_
    refine (h before c hc hℓ).bind fun x c₁ hc₁ hlen₁ => ?_
    refine (Tracks.skipNewlines hc₁).bind fun _ c₂ hc₂ hlen₂ => ?_
    refine (Tracks.comma hc₂).bind fun b c₃ hc₃ hlen₃ => ?_
    have hmore : Tracks k 0 (fun xs => xs)
        (members member close want n (x :: before) >>= fun xs => pure (x :: xs))
        (members member' close want m (x :: before) >>= fun xs => pure (x :: xs)) c₃ :=
      (ih m (x :: before) hc₃ (by omega) (by omega) (by omega)).bind fun xs c₄ hc₄ _ => .pure hc₄ _
    cases b with
    | true => exact hmore
    | false => exact .ifAt (fun _ => hmore) fun _ => .fail_bind want _ _

theorem membersTo_tracks {member member' : List α → Parser α}
    (h : ∀ before, TracksBelow k ℓ (member before) (member' before)) (close : Mark) (want wantClose : Want) {n m : Nat}
    {c : Cursor} (hc : c.Closed) (hℓ : c.rest.length < ℓ) (hn : c.rest.length ≤ n) (hm : c.rest.length ≤ m) :
    Tracks k 1 (fun xs => xs) (membersTo n member close want wantClose)
      (membersTo m member' close want wantClose) c := by
  simp only [membersTo]
  refine (Tracks.skipNewlines hc).bind fun _ c₁ hc₁ hlen₁ => ?_
  refine (members_tracks h close want _ _ [] hc₁ (by omega) (by omega) (by omega)).bind fun xs c₂ hc₂ hlen₂ => ?_
  refine (Tracks.expect wantClose hc₂ (by simp)).bind fun _ c₃ hc₃ _ => ?_
  exact .pure hc₃ _

theorem keyText?_down (t : Token) : keyText? (t.down k) = keyText? t := rfl

theorem ne_eof_of_keyText? {t : Token} {key : String} (h : keyText? t = some key) : t.kind ≠ .eof := by
  intro hk
  simp [keyText?, hk] at h

theorem keySeparator_tracks {c : Cursor} (hc : c.Closed) : Tracks k 1 (fun u => u) keySeparator keySeparator c := by
  simp only [keySeparator]
  refine .isAt (fun hcolon => ?_) fun _ => .ifAt (fun hassign => ?_) fun _ => .fail _
  · refine .isAt (fun _ => ?_) fun _ => ?_
    · exact (Tracks.next hc (by simp [hcolon])).bind fun _ c₁ hc₁ _ => .pure hc₁ _
    · exact (Tracks.next hc (by simp [hcolon])).bind fun _ c₁ hc₁ _ => .pure hc₁ _
  · exact (Tracks.next hc (by simp [hassign])).bind fun _ c₁ hc₁ _ => .pure hc₁ _

theorem numberLiteral_tracks (t : Token) {c : Cursor} (hc : c.Closed) :
    Tracks k 0 (fun e => e) (numberLiteral t) (numberLiteral (t.down k)) c := by
  unfold numberLiteral
  rw [Token.text_down]
  cases Double.read? t.text with
  | some v => exact .pure hc _
  | none => exact ⟨rfl, fun _ _ hb => by cases hb⟩

section Nested

variable {inner inner' : Parser Expr} (h : TracksBelow k ℓ inner inner')
include h

theorem namedArgument_tracks (before : List Argument) :
    TracksBelow k ℓ (namedArgument inner before) (namedArgument inner' before) := by
  intro c hc hℓ
  simp only [namedArgument]
  refine .current ?_
  refine (Tracks.expectName _ hc).bind fun name c₁ hc₁ hlen₁ => ?_
  refine (Tracks.expect _ hc₁ (by simp)).bind fun _ c₂ hc₂ hlen₂ => ?_
  refine (h c₂ hc₂ (by omega)).bind fun value c₃ hc₃ _ => ?_
  by_cases hrepeated : (before.any (·.isNamed name)) = true
  · simp only [hrepeated, if_true]
    exact .duplicate_bind _ _ _ _ _
  · simp only [hrepeated]
    exact .pure hc₃ _

theorem soleArgument_tracks : TracksBelow k ℓ (soleArgument inner) (soleArgument inner') := by
  intro c hc hℓ
  simp only [soleArgument]
  refine (h c hc hℓ).bind fun value c₁ hc₁ _ => ?_
  refine (Tracks.skipNewlines hc₁).bind fun _ c₂ hc₂ _ => ?_
  refine (Tracks.comma hc₂).bind fun _ c₃ hc₃ _ => ?_
  refine (Tracks.expect _ hc₃ (by simp)).bind fun _ c₄ hc₄ _ => ?_
  exact .pure hc₄ _

theorem arguments_tracks {n m : Nat} {c : Cursor} (hc : c.Closed) (hℓ : c.rest.length ≤ ℓ) (hn : c.rest.length ≤ n)
    (hm : c.rest.length ≤ m) : Tracks k 1 (fun xs => xs) (arguments n inner) (arguments m inner') c := by
  simp only [arguments]
  refine (Tracks.expect _ hc (by simp)).bind fun _ c₁ hc₁ hlen₁ => ?_
  refine (Tracks.skipNewlines hc₁).bind fun _ c₂ hc₂ hlen₂ => ?_
  refine (Tracks.atNamed hc₂).bind fun b c₃ hc₃ hlen₃ => ?_
  cases b with
  | true =>
    exact (membersTo_tracks (namedArgument_tracks h) _ _ _ hc₃ (by omega) (by omega) (by omega)).weaken (Nat.zero_le 1)
  | false => exact (soleArgument_tracks h c₃ hc₃ (by omega)).weaken (Nat.zero_le 1)

theorem call_tracks (name : String) {n m : Nat} {c : Cursor} (hc : c.Closed) (hℓ : c.rest.length ≤ ℓ)
    (hn : c.rest.length ≤ n) (hm : c.rest.length ≤ m) :
    Tracks k 1 (fun x => x) (call n inner name) (call m inner' name) c := by
  simp only [call]
  refine (arguments_tracks h hc hℓ hn hm).bind fun args c₁ hc₁ _ => ?_
  exact .pure hc₁ _

theorem entry_tracks (before : List (String × Expr)) : TracksBelow k ℓ (entry inner before) (entry inner' before) := by
  intro c hc hℓ
  simp only [entry]
  refine .current ?_
  rw [keyText?_down]
  cases hkey : keyText? c.current with
  | none => exact .fail _
  | some key =>
    refine (Tracks.next hc (ne_eof_of_keyText? hkey)).bind fun _ c₁ hc₁ hlen₁ => ?_
    refine (keySeparator_tracks hc₁).bind fun _ c₂ hc₂ hlen₂ => ?_
    refine (h c₂ hc₂ (by omega)).bind fun value c₃ hc₃ _ => ?_
    by_cases hrepeated : (before.any (·.1 == key)) = true
    · simp only [hrepeated, if_true]
      exact .duplicate_bind _ _ _ _ _
    · simp only [hrepeated]
      exact .pure hc₃ _

theorem listLiteral_tracks {n m : Nat} {c : Cursor} (hc : c.Closed) (hℓ : c.rest.length ≤ ℓ) (hn : c.rest.length ≤ n)
    (hm : c.rest.length ≤ m) : Tracks k 1 (fun e => e) (listLiteral n inner) (listLiteral m inner') c := by
  simp only [listLiteral]
  refine (Tracks.expect _ hc (by simp)).bind fun _ c₁ hc₁ hlen₁ => ?_
  refine (membersTo_tracks (fun _ => h) _ _ _ hc₁ (by omega) (by omega) (by omega)).bind fun items c₂ hc₂ _ => ?_
  exact .pure hc₂ _

theorem objectLiteral_tracks {n m : Nat} {c : Cursor} (hc : c.Closed) (hℓ : c.rest.length ≤ ℓ) (hn : c.rest.length ≤ n)
    (hm : c.rest.length ≤ m) : Tracks k 1 (fun e => e) (objectLiteral n inner) (objectLiteral m inner') c := by
  simp only [objectLiteral]
  refine (Tracks.expect _ hc (by simp)).bind fun _ c₁ hc₁ hlen₁ => ?_
  refine (membersTo_tracks (entry_tracks h) _ _ _ hc₁ (by omega) (by omega) (by omega)).bind fun items c₂ hc₂ _ => ?_
  exact .pure hc₂ _

theorem named_tracks (name : String) (alone : Expr) {n m : Nat} {c : Cursor} (hc : c.Closed) (hℓ : c.rest.length ≤ ℓ)
    (hn : c.rest.length ≤ n) (hm : c.rest.length ≤ m) :
    Tracks k 0 (fun e => e) (named n inner name alone) (named m inner' name alone) c := by
  simp only [named]
  refine .ifAt (fun _ => ?_) fun _ => .pure hc _
  refine (call_tracks h name hc hℓ hn hm).bind fun x c₁ hc₁ _ => ?_
  exact .pure hc₁ _

theorem exprWith_tracks {n m : Nat} {c : Cursor} (hc : c.Closed) (hℓ : c.rest.length ≤ ℓ) (hn : c.rest.length ≤ n)
    (hm : c.rest.length ≤ m) : Tracks k 1 (fun e => e) (exprWith n inner) (exprWith m inner') c := by
  simp only [exprWith]
  refine .current ?_
  rw [Token.kind_down, Token.text_down]
  have hnext : c.current.kind ≠ .eof → Tracks k 1 (Token.down k) next next c := Tracks.next hc
  cases hk : c.current.kind with
  | identifier =>
    refine (hnext (by simp [hk])).bind fun _ c₁ hc₁ hlen₁ => ?_
    exact named_tracks h _ _ hc₁ (by omega) (by omega) (by omega)
  | keyword j =>
    by_cases hj : j.isComponent = true
    · simp only [hj, if_true]
      refine (hnext (by simp [hk])).bind fun _ c₁ hc₁ hlen₁ => ?_
      exact named_tracks h _ _ hc₁ (by omega) (by omega) (by omega)
    · simp only [hj]
      exact .fail _
  | string => exact (hnext (by simp [hk])).bind fun _ c₁ hc₁ _ => .pure hc₁ _
  | number => exact (hnext (by simp [hk])).bind fun _ c₁ hc₁ _ => numberLiteral_tracks _ hc₁
  | templateVar => exact (hnext (by simp [hk])).bind fun _ c₁ hc₁ _ => .pure hc₁ _
  | mark j =>
    cases j with
    | lbrace => exact objectLiteral_tracks h hc hℓ hn hm
    | lbracket => exact listLiteral_tracks h hc hℓ hn hm
    | _ => exact .fail _
  | _ => exact .fail _

end Nested

theorem exprTo_tracks (n m : Nat) {c : Cursor} (hc : c.Closed) (hn : c.rest.length < n) (hm : c.rest.length < m) :
    Tracks k 1 (fun e => e) (exprTo n) (exprTo m) c := by
  induction n generalizing m c with
  | zero => omega
  | succ n ih =>
    obtain ⟨m, rfl⟩ : ∃ j, m = j + 1 := ⟨m - 1, by omega⟩
    have hinner : TracksBelow k c.rest.length (exprTo n) (exprTo m) := by
      intro c' hc' hlen
      exact ih m hc' (by omega) (by omega)
    exact exprWith_tracks hinner hc (Nat.le_refl _) (by omega) (by omega)

theorem expr_tracks {n m : Nat} {c : Cursor} (hc : c.Closed) (hn : c.rest.length ≤ n) (hm : c.rest.length ≤ m) :
    Tracks k 1 (fun e => e) (expr n) (expr m) c :=
  exprTo_tracks _ _ hc (Nat.lt_succ_of_le hn) (Nat.lt_succ_of_le hm)

end ChainCompiler.Parser
