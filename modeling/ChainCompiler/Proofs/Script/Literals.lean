import ChainCompiler.Proofs.Quoting
import ChainCompiler.Script.Layout

/-! String literals in the text of a script. A text is cut into literals and the characters outside of them; a text is
sealed when the literals are quoted texts and all else is harmless. What is put together from sealed texts is sealed. -/

namespace ChainCompiler.Script

open ChainCompiler.Text

/-- A part of a text: a string literal, or a character outside of all literals. -/
inductive Piece where
  | literal (text : List Char)
  | plain (c : Char)
  deriving DecidableEq, Repr

def Piece.text : Piece → List Char
  | .literal text => text
  | .plain c => [c]

def Piece.literal? : Piece → Option (List Char)
  | .literal text => some text
  | .plain _ => none

/-- The pieces of a text whose first `skip` characters are already dealt with. A quote starts a literal, which ends with
the nearest quote that no backslash stands in front of. -/
def piecesFrom : Nat → List Char → List Piece
  | _, [] => []
  | skip + 1, _ :: cs => piecesFrom skip cs
  | 0, c :: cs =>
    match (if c = '"' then Rule.stringEnd? cs else none) with
    | some n => .literal (c :: cs.take n) :: piecesFrom n cs
    | none => .plain c :: piecesFrom 0 cs

def pieces (cs : List Char) : List Piece := piecesFrom 0 cs

theorem piecesFrom_eq (skip : Nat) (cs : List Char) : piecesFrom skip cs = pieces (cs.drop skip) := by
  induction cs generalizing skip with
  | nil => cases skip <;> rfl
  | cons c cs ih =>
    cases skip with
    | zero => rfl
    | succ skip => exact ih skip

theorem pieces_cons_of_ne {c : Char} (hc : c ≠ '"') (cs : List Char) : pieces (c :: cs) = .plain c :: pieces cs := by
  rw [pieces, piecesFrom, if_neg hc]
  rfl

/-- A quoted text is one literal, whatever follows it. -/
theorem pieces_quote_append (t : String) (rest : List Char) :
    pieces ((quote t).toList ++ rest) = .literal (quote t).toList :: pieces rest := by
  have hend : Rule.stringEnd? (escape t.toList ++ ['"'] ++ rest) = some (escape t.toList ++ ['"']).length := by
    rw [List.append_assoc, List.singleton_append, Rule.stringEnd?_of_units (units_escape t.toList), List.length_append]
    rfl
  rw [toList_quote, pieces, List.cons_append, List.cons_append, piecesFrom, if_pos rfl, hend]
  dsimp only
  rw [piecesFrom_eq, List.take_left, List.drop_left]

/-- The pieces of a text make up all of it. -/
theorem flatMap_text_pieces (cs : List Char) : (pieces cs).flatMap Piece.text = cs := by
  have hfrom : ∀ skip, (piecesFrom skip cs).flatMap Piece.text = cs.drop skip := by
    intro skip
    induction cs generalizing skip with
    | nil => cases skip <;> rfl
    | cons c cs ih =>
      cases skip with
      | zero =>
        rw [piecesFrom]
        split
        · next n _ =>
          rw [List.flatMap_cons, ih n, Piece.text, List.cons_append, List.take_append_drop]
          rfl
        · rw [List.flatMap_cons, ih 0]
          rfl
      | succ skip => exact ih skip
  exact hfrom 0

def isHarmless (c : Char) : Bool := c.isAlphanum || " \n_$.,;:=()[]\x7b\x7d/".toList.contains c

def Harmless (cs : List Char) : Prop := ∀ c ∈ cs, isHarmless c = true

instance (cs : List Char) : Decidable (Harmless cs) := decidable_of_iff (cs.all isHarmless = true) List.all_eq_true

@[simp] theorem harmless_cons {c : Char} {cs : List Char} : Harmless (c :: cs) ↔ isHarmless c = true ∧ Harmless cs :=
  List.forall_mem_cons

@[simp] theorem harmless_append {cs ds : List Char} : Harmless (cs ++ ds) ↔ Harmless cs ∧ Harmless ds :=
  List.forall_mem_append

/-- A text that, whatever follows it, consists of harmless characters and of the given texts, quoted, in their order. -/
def Sealed (cs : List Char) (texts : List String) : Prop :=
  ∃ ps, (∀ rest, pieces (cs ++ rest) = ps ++ pieces rest) ∧ (∀ c, .plain c ∈ ps → isHarmless c = true) ∧
    ps.filterMap Piece.literal? = texts.map fun t => (quote t).toList

namespace Sealed

theorem nil : Sealed [] [] := ⟨[], by simp⟩

theorem append {cs ds : List Char} {ts us : List String} (h : Sealed cs ts) (h' : Sealed ds us) :
    Sealed (cs ++ ds) (ts ++ us) := by
  obtain ⟨ps, hps, hplain, hliteral⟩ := h
  obtain ⟨qs, hqs, hplain', hliteral'⟩ := h'
  refine ⟨ps ++ qs, fun rest => ?_, fun c hc => ?_, ?_⟩
  · rw [List.append_assoc, hps, hqs, List.append_assoc]
  · exact (List.mem_append.1 hc).elim (hplain c) (hplain' c)
  · rw [List.filterMap_append, hliteral, hliteral', List.map_append]

theorem harmless {cs : List Char} (h : Harmless cs) : Sealed cs [] := by
  induction cs with
  | nil => exact .nil
  | cons c cs ih =>
    obtain ⟨hc, hcs⟩ := harmless_cons.1 h
    have hquote : c ≠ '"' := by
      rintro rfl
      exact absurd hc (by decide)
    have hfirst : Sealed [c] [] := ⟨[.plain c], pieces_cons_of_ne hquote, by simpa using hc, rfl⟩
    exact hfirst.append (ih hcs)

theorem quote (t : String) : Sealed (quote t).toList [t] :=
  ⟨[.literal (Text.quote t).toList], pieces_quote_append t, by simp, rfl⟩

end Sealed

/-- Texts each of which is sealed, with the texts quoted in all of them. -/
inductive SealedAll : List (List Char) → List String → Prop
  | nil : SealedAll [] []
  | cons {cs parts ts us} : Sealed cs ts → SealedAll parts us → SealedAll (cs :: parts) (ts ++ us)

namespace SealedAll

theorem append {as bs : List (List Char)} {ts us : List String} (h : SealedAll as ts) (h' : SealedAll bs us) :
    SealedAll (as ++ bs) (ts ++ us) := by
  induction h with
  | nil => exact h'
  | cons hcs _ ih =>
    rw [List.append_assoc]
    exact .cons hcs ih

theorem map {α : Type} {xs : List α} {f : α → List Char} {g : α → List String} (h : ∀ x ∈ xs, Sealed (f x) (g x)) :
    SealedAll (xs.map f) (xs.flatMap g) := by
  induction xs with
  | nil => exact .nil
  | cons x xs ih =>
    obtain ⟨hx, hxs⟩ := List.forall_mem_cons.1 h
    exact .cons hx (ih hxs)

theorem joined {parts : List (List Char)} {ts : List String} {sep : String} (h : SealedAll parts ts)
    (hsep : Harmless sep.toList) : Sealed (joined sep parts) ts := by
  induction h with
  | nil => exact .nil
  | @cons cs parts ts us hcs hparts ih =>
    cases parts with
    | nil =>
      cases hparts
      simpa [Script.joined] using hcs
    | cons ds parts =>
      rw [Script.joined, List.intercalate_cons_cons]
      have happend := (hcs.append (Sealed.harmless hsep)).append ih
      rwa [List.append_nil] at happend

end SealedAll

end ChainCompiler.Script
