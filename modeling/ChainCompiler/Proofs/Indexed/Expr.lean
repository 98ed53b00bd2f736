import ChainCompiler.Proofs.Indexed.Following
import ChainCompiler.Proofs.Shift.Expr

/-! The machine follows the expression parsers, under any bound that exceeds the tokens up to the first end of input. -/

namespace ChainCompiler

variable {α : Type} {x : Input} {ℓ n i : Nat}

/-- Where fewer than `ℓ` tokens are left before the first end of input, `W` follows `P` and passes a token at least. -/
def FollowsBelow (x : Input) (ℓ : Nat) (P : Parser α) (W : Nat → Indexed α) : Prop :=
  ∀ i ≤ x.last, x.last - i < ℓ → Follows x 1 P W i

namespace Parser

def soleValue (inner : Parser Expr) : Parser (List Argument) := do
  let value ← inner
  skipNewlines
  let _ ← comma
  return [⟨none, value⟩]

theorem soleArgument_eq (inner : Parser Expr) :
    soleArgument inner = (soleValue inner >>= fun args => do
      let _ ← expect (.mark .rparen) .argumentsClose
      return args) := by
  simp only [soleArgument, soleValue, bind_assoc, pure_bind]

end Parser

namespace Follows

/-- The loop over members, for any machine that goes on as the loop does. -/
theorem members {member : List α → Parser α} {W : List α → Nat → Indexed α} {loop : List α → Nat → Indexed (List α)}
    {close : Mark} {want : Want}
    (hloop : ∀ before n, loop before (n + 1) = do
      if ← Indexed.isAt (.mark close) then return []
      else
        let a ← W before n
        Indexed.memberEnd close want n
        let more ← loop (a :: before) n
        return a :: more)
    (h : ∀ before, FollowsBelow x ℓ (member before) (W before)) (n : Nat) :
    ∀ (before : List α) {i : Nat}, i ≤ x.last → x.last - i < ℓ → x.last - i < n →
      Follows x 0 (Parser.members member close want n before) (loop before) i := by
  induction n with
  | zero => intro before i _ _ hn; omega
  | succ n ih =>
    intro before i hi hℓ hn
    refine .of_succ (hloop before) ?_
    rw [Parser.members]
    refine .ifAt (fun _ => .pure _) fun _ => ?_
    refine (h before i hi hℓ).bind fun a i₁ hi₁ hlt₁ => ?_
    simp only [Indexed.memberEnd, bind_assoc]
    refine (Follows.skipNewlines hi₁).bind fun _ i₂ hi₂ hle₂ => ?_
    refine Follows.comma.bind fun b i₃ hi₃ hle₃ => ?_
    have hmore : Follows x 0 (Parser.members member close want n (a :: before) >>= fun as => Pure.pure (a :: as))
        (fun m => loop (a :: before) m >>= fun as => Pure.pure (a :: as)) i₃ :=
      (ih (a :: before) hi₃ (by omega) (by omega)).bind fun _ _ _ _ => .pure _
    cases b with
    | true => exact hmore
    | false =>
      simp only [Bool.false_eq_true, if_false, bind_assoc]
      exact .isAt (fun _ => hmore) fun _ => .fail_bind want _ _

theorem keySeparator : Follows x 1 Parser.keySeparator (fun _ => Indexed.keySeparator) i := by
  have hnext : (x.place i).current.kind ≠ .eof → Follows x 1 (Parser.next >>= fun _ => Pure.pure ())
      (fun _ => Indexed.next >>= fun _ => Pure.pure ()) i := fun hk => (Follows.next hk).bind fun _ _ _ _ => .pure ()
  simp only [Parser.keySeparator, Indexed.keySeparator]
  refine .isAt (fun hcolon => ?_) fun _ => .ifAt (fun hassign => hnext (by simp [hassign])) fun _ => .fail _
  intro s hs hsound
  rw [Parser.isAt_bind, Bool.true_or]
  exact hnext (by simp [hcolon]) s hs hsound

theorem numberLiteral (t : Token) : Follows x 0 (Parser.numberLiteral t) (fun _ => Indexed.numberLiteral t) i := by
  unfold Parser.numberLiteral Indexed.numberLiteral
  cases Double.read? t.text with
  | some v => exact .pure _
  | none =>
    intro s hs hsound
    subst hs
    exact ⟨_, .of_eq fun _ => rfl, .refused hsound (Nat.le_refl _)⟩

section Nested

variable {inner : Parser Expr} (h : FollowsBelow x ℓ inner Indexed.expr)
include h

theorem namedArgument (before : List Argument) :
    FollowsBelow x ℓ (Parser.namedArgument inner before) (Indexed.namedArgument before) := by
  intro i hi hℓ
  refine .of_succ (Indexed.namedArgument.eq_2 before) ?_
  rw [Parser.namedArgument]
  refine .current ?_
  refine (Follows.expectName _).bind fun name i₁ hi₁ hlt₁ => ?_
  refine (Follows.expect _ (by simp)).bind fun _ i₂ hi₂ hlt₂ => ?_
  refine (h i₂ hi₂ (by omega)).bind fun value i₃ hi₃ _ => ?_
  by_cases hrepeated : (before.any (·.isNamed name)) = true
  · simp only [hrepeated, if_true]
    exact .duplicate_bind _ _ _ _ _
  · simp only [hrepeated]
    exact .pure _

theorem entry (before : List (String × Expr)) :
    FollowsBelow x ℓ (Parser.entry inner before) (Indexed.entry before) := by
  intro i hi hℓ
  refine .of_succ (Indexed.entry.eq_2 before) ?_
  rw [Parser.entry]
  refine .current ?_
  cases hkey : Parser.keyText? (x.place i).current with
  | none => exact .fail _
  | some key =>
    refine (Follows.next (Parser.ne_eof_of_keyText? hkey)).bind fun _ i₁ hi₁ hlt₁ => ?_
    refine Follows.keySeparator.bind fun _ i₂ hi₂ hlt₂ => ?_
    refine (h i₂ hi₂ (by omega)).bind fun value i₃ hi₃ _ => ?_
    by_cases hrepeated : (before.any (·.1 == key)) = true
    · simp only [hrepeated, if_true]
      exact .duplicate_bind _ _ _ _ _
    · simp only [hrepeated]
      exact .pure _

/-- The only argument of a call, up to the closing bracket. -/
theorem soleArgument (hi : i ≤ x.last) (hℓ : x.last - i < ℓ) :
    Follows x 1 (Parser.soleValue inner) Indexed.soleArgument i := by
  refine .of_succ Indexed.soleArgument.eq_2 ?_
  rw [Parser.soleValue]
  refine (h i hi hℓ).bind fun value i₁ hi₁ _ => ?_
  refine (Follows.skipNewlines hi₁).bind fun _ i₂ hi₂ _ => ?_
  exact Follows.comma.bind fun _ _ _ _ => .pure _

/-- The arguments of a call. The parser looks for newlines once more in front of named ones, in vain. -/
theorem call (name : String) (hi : i ≤ x.last) (hℓ : x.last - i ≤ ℓ) (hn : x.last - i ≤ n) :
    Follows x 1 (Parser.call n inner name) (Indexed.call name) i := by
  refine .of_succ (Indexed.call.eq_2 name) ?_
  rw [Parser.call, Parser.arguments]
  simp only [bind_assoc]
  refine (Follows.expect _ (by simp)).bind fun _ i₁ hi₁ hlt₁ => ?_
  refine .skipNewlines_bind hi₁ fun i₂ hi₂ hle₂ hne => .atNamed fun b => ?_
  cases b with
  | true =>
    simp only [if_true, Parser.membersTo, bind_assoc]
    refine .skipNewlines_left hne ?_
    refine (Follows.members Indexed.namedArguments.eq_2 (namedArgument h) _ [] hi₂ (by omega) (by omega)).bind
      fun args i₃ hi₃ _ => ?_
    refine (Follows.expect _ (by simp)).bind fun _ i₄ hi₄ _ => ?_
    exact .pure _
  | false =>
    simp only [Bool.false_eq_true, if_false]
    rw [Parser.soleArgument_eq, bind_assoc]
    refine (soleArgument h hi₂ (by omega)).bind fun args i₃ hi₃ _ => ?_
    simp only [bind_assoc, pure_bind]
    exact (Follows.expect _ (by simp)).bind fun _ _ _ _ => .pure _

theorem listLiteral (hi : i ≤ x.last) (hℓ : x.last - i ≤ ℓ) (hn : x.last - i ≤ n) :
    Follows x 1 (Parser.listLiteral n inner) Indexed.listLiteral i := by
  refine .of_succ Indexed.listLiteral.eq_2 ?_
  rw [Parser.listLiteral]
  simp only [Parser.membersTo, bind_assoc]
  refine (Follows.expect _ (by simp)).bind fun _ i₁ hi₁ hlt₁ => ?_
  refine (Follows.skipNewlines hi₁).bind fun _ i₂ hi₂ hle₂ => ?_
  refine (Follows.members (fun _ => Indexed.items.eq_2) (fun _ => h) _ [] hi₂ (by omega) (by omega)).bind
    fun items i₃ hi₃ _ => ?_
  refine (Follows.expect _ (by simp)).bind fun _ i₄ hi₄ _ => ?_
  exact .pure _

theorem objectLiteral (hi : i ≤ x.last) (hℓ : x.last - i ≤ ℓ) (hn : x.last - i ≤ n) :
    Follows x 1 (Parser.objectLiteral n inner) Indexed.objectLiteral i := by
  refine .of_succ Indexed.objectLiteral.eq_2 ?_
  rw [Parser.objectLiteral]
  simp only [Parser.membersTo, bind_assoc]
  refine (Follows.expect _ (by simp)).bind fun _ i₁ hi₁ hlt₁ => ?_
  refine (Follows.skipNewlines hi₁).bind fun _ i₂ hi₂ hle₂ => ?_
  refine (Follows.members Indexed.entries.eq_2 (entry h) _ [] hi₂ (by omega) (by omega)).bind fun items i₃ hi₃ _ => ?_
  refine (Follows.expect _ (by simp)).bind fun _ i₄ hi₄ _ => ?_
  exact .pure _

theorem named (name : String) (alone : Expr) (hi : i ≤ x.last) (hℓ : x.last - i ≤ ℓ) (hn : x.last - i ≤ n) :
    Follows x 0 (Parser.named n inner name alone) (Indexed.named name alone) i := by
  refine .of_succ (Indexed.named.eq_2 name alone) ?_
  rw [Parser.named]
  refine .ifAt (fun _ => ?_) fun _ => .pure _
  exact (call h name hi hℓ hn).bind fun _ _ _ _ => .pure _

theorem exprWith (hi : i ≤ x.last) (hℓ : x.last - i ≤ ℓ) (hn : x.last - i ≤ n) :
    Follows x 1 (Parser.exprWith n inner) Indexed.expr i := by
  refine .of_succ Indexed.expr.eq_2 ?_
  rw [Parser.exprWith]
  refine .current ?_
  have hnext : (x.place i).current.kind ≠ .eof → Follows x 1 Parser.next (fun _ => Indexed.next) i :=
    Follows.next
  cases hk : (x.place i).current.kind with
  | identifier =>
    refine (hnext (by simp [hk])).bind fun _ i₁ hi₁ hlt₁ => ?_
    exact named h _ _ hi₁ (by omega) (by omega)
  | keyword k =>
    by_cases hcomponent : k.isComponent = true
    · simp only [hcomponent, if_true]
      refine (hnext (by simp [hk])).bind fun _ i₁ hi₁ hlt₁ => ?_
      exact named h _ _ hi₁ (by omega) (by omega)
    · simp only [hcomponent]
      exact .fail _
  | string => exact (hnext (by simp [hk])).bind fun _ _ _ _ => .pure _
  | number => exact (hnext (by simp [hk])).bind fun _ _ _ _ => .numberLiteral _
  | templateVar => exact (hnext (by simp [hk])).bind fun _ _ _ _ => .pure _
  | mark m =>
    cases m with
    | lbrace => exact objectLiteral h hi hℓ hn
    | lbracket => exact listLiteral h hi hℓ hn
    | _ => exact .fail _
  | _ => exact .fail _

end Nested

theorem exprTo (n : Nat) (hi : i ≤ x.last) (hn : x.last - i < n) : Follows x 1 (Parser.exprTo n) Indexed.expr i := by
  induction n generalizing i with
  | zero => omega
  | succ n ih =>
    have hinner : FollowsBelow x (x.last - i) (Parser.exprTo n) Indexed.expr := fun j hj hlt => ih hj (by omega)
    exact exprWith hinner hi (Nat.le_refl _) (by omega)

theorem expr (hi : i ≤ x.last) (hn : x.last - i ≤ n) : Follows x 1 (Parser.expr n) Indexed.expr i :=
  exprTo _ hi (Nat.lt_succ_of_le hn)

end Follows

end ChainCompiler
