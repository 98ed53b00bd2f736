import ChainCompiler.Proofs.Indexed.Machine
import ChainCompiler.Proofs.Shift.Basic

/-! The machine follows the parser. From each index up to the first end of input it settles on ending as the parser does
at that place, at a later index of that kind. What comes after the first end of input may be one thing for the machine
and another one for the parser. -/

namespace ChainCompiler

structure Course.Sound (last : Nat) (s : Course) : Prop where
  ascending : s.indices.Pairwise (· ≥ ·)
  bounded : s.index ≤ last

theorem Course.Sound.move {last i : Nat} {s : Course} (h : s.Sound last) (hi : s.index ≤ i) (hlast : i ≤ last) :
    Course.Sound last ⟨i, s.indices⟩ := by
  refine ⟨List.pairwise_cons.2 ⟨fun j hj => ?_, h.ascending⟩, hlast⟩
  rcases List.mem_cons.1 hj with rfl | hj
  · exact hi
  · exact Nat.le_trans ((List.pairwise_cons.1 h.ascending).1 j hj) hi

/-- A sequence of tokens cut at its first end of input, with two ways to go on after that. -/
structure Input where
  front : List Token
  eof : Token
  rest : List Token
  other : List Token
  front_ne_eof : ∀ t ∈ front, t.kind ≠ .eof
  kind_eof : eof.kind = .eof

namespace Input

variable (x : Input) {i : Nat}

def tokens : List Token := x.front ++ x.eof :: x.rest

def last : Nat := x.front.length

/-- The place of the parser at an index, in the sequence that goes on in the other way. -/
def place (i : Nat) : Cursor := (Cursor.mk x.eof x.other).back (x.front.drop i)

theorem tokens_place (i : Nat) : (x.place i).tokens = x.front.drop i ++ x.eof :: x.other := by
  rw [place, Cursor.tokens_back]
  rfl

theorem place_last : x.place x.last = ⟨x.eof, x.other⟩ := by
  rw [place, last, List.drop_length, Cursor.back_nil]

theorem place_eq_back (hi : i < x.last) : x.place i = (x.place (i + 1)).back [x.front[i]] := by
  apply Cursor.ext_tokens
  rw [Cursor.tokens_back, tokens_place, tokens_place, List.drop_eq_getElem_cons hi]
  rfl

theorem current_place (hi : i < x.last) : (x.place i).current = x.front[i] := by
  rw [place_eq_back x hi, Cursor.current_back_cons]

theorem getElem?_tokens (hi : i ≤ x.last) : x.tokens[i]? = some (x.place i).current := by
  rcases Nat.lt_or_eq_of_le hi with hlt | rfl
  · rw [current_place x hlt, tokens, List.getElem?_append_left hlt, List.getElem?_eq_getElem hlt]
  · rw [place_last, tokens, last, List.getElem?_append_right (Nat.le_refl _), Nat.sub_self]
    rfl

/-- Before the first end of input, every move is a step to the next index. -/
theorem lt_last_of_ne_eof (hi : i ≤ x.last) (hk : (x.place i).current.kind ≠ .eof) : i < x.last := by
  rcases Nat.lt_or_eq_of_le hi with hlt | rfl
  · exact hlt
  · rw [place_last] at hk
    exact absurd x.kind_eof hk

theorem advance_place (hi : i < x.last) : (x.place i).advance = x.place (i + 1) := by
  rw [place_eq_back x hi, Cursor.advance_back_cons _ _ (x.front_ne_eof _ (List.getElem_mem hi)), Cursor.back_nil]

theorem length_rest_place (i : Nat) : (x.place i).rest.length = (x.last - i) + x.other.length := by
  rw [place, Cursor.length_rest_back, List.length_drop, last]

/-- What the machine ends with when the parser ends in the given way: at least `w` indices further, if it is not
refused. -/
inductive Matches {α : Type} (x : Input) (i w : Nat) : Except ParseError (α × Cursor) → Except Stop α × Course → Prop
  | read {a s} : s.Sound x.last → i + w ≤ s.index → Matches x i w (.ok (a, x.place s.index)) (.ok a, s)
  | refused {e s} : s.Sound x.last → i ≤ s.index → Matches x i w (.error e) (.error (.refused e), s)

/-- What is matched from a later index on is matched from an earlier one. -/
theorem Matches.earlier {α : Type} {x : Input} {i j u w : Nat} {p : Except ParseError (α × Cursor)}
    {r : Except Stop α × Course} (h : x.Matches j w p r) (hle : i ≤ j) (hu : i + u ≤ j + w) : x.Matches i u p r := by
  cases h with
  | read hsound hlt => exact .read hsound (Nat.le_trans hu hlt)
  | refused hsound hle' => exact .refused hsound (Nat.le_trans hle hle')

end Input

/-- From some depth on, the machine has this outcome. -/
def Indexed.Settles {α : Type} (W : Nat → Indexed α) (ts : List Token) (s : Course)
    (r : Except Stop α × Course) : Prop :=
  ∃ depth, ∀ n ≥ depth, W n ts s = some r

/-- From the index `i` on, the machine `W` settles on what the parser `P` does. -/
def Follows {α : Type} (x : Input) (w : Nat) (P : Parser α) (W : Nat → Indexed α) (i : Nat) : Prop :=
  ∀ s : Course, s.index = i → s.Sound x.last →
    ∃ r, Indexed.Settles W x.tokens s r ∧ x.Matches i w (P (x.place i)) r

namespace Indexed

variable {α β : Type} {ts : List Token} {s s' : Course}

theorem bind_of_ok {W : Indexed α} {a : α} (g : α → Indexed β) (h : W ts s = some (.ok a, s')) :
    (W >>= g) ts s = g a ts s' := by
  change ((W ts s).bind fun x => ExceptT.bindCont (fun b => g b ts) x.1 x.2) = _
  rw [h]
  rfl

theorem bind_of_error {W : Indexed α} {e : Stop} (g : α → Indexed β) (h : W ts s = some (.error e, s')) :
    (W >>= g) ts s = some (.error e, s') := by
  change ((W ts s).bind fun x => ExceptT.bindCont (fun b => g b ts) x.1 x.2) = _
  rw [h]
  rfl

namespace Settles

variable {W : Nat → Indexed α} {g : Nat → α → Indexed β} {r : Except Stop α × Course} {r' : Except Stop β × Course}

/-- There is one outcome at most. -/
theorem unique {r₁ r₂ : Except Stop α × Course} (h₁ : Settles W ts s r₁) (h₂ : Settles W ts s r₂) : r₁ = r₂ := by
  obtain ⟨depth₁, h₁⟩ := h₁
  obtain ⟨depth₂, h₂⟩ := h₂
  have hfirst := h₁ (max depth₁ depth₂) (Nat.le_max_left _ _)
  have hsecond := h₂ (max depth₁ depth₂) (Nat.le_max_right _ _)
  exact Option.some.inj (hfirst.symm.trans hsecond)

/-- A part that makes no calls. -/
theorem of_eq (h : ∀ n, W n ts s = some r) : Settles W ts s r := ⟨0, fun n _ => h n⟩

/-- A call goes one deeper. -/
theorem of_succ {W' : Nat → Indexed α} (hW : ∀ n, W (n + 1) = W' n) (h : Settles W' ts s r) : Settles W ts s r := by
  obtain ⟨depth, h⟩ := h
  refine ⟨depth + 1, fun n hn => ?_⟩
  obtain ⟨m, rfl⟩ := Nat.exists_eq_add_of_le' hn
  rw [← Nat.add_assoc, hW]
  exact h (m + depth) (Nat.le_add_left _ _)

theorem bind_ok {a : α} (hW : Settles W ts s (.ok a, s')) (hg : Settles (fun n => g n a) ts s' r') :
    Settles (fun n => W n >>= g n) ts s r' := by
  obtain ⟨depth, hW⟩ := hW
  obtain ⟨depth', hg⟩ := hg
  refine ⟨max depth depth', fun n hn => ?_⟩
  have hfirst := hW n (Nat.le_trans (Nat.le_max_left _ _) hn)
  have hsecond := hg n (Nat.le_trans (Nat.le_max_right _ _) hn)
  exact (bind_of_ok (g n) hfirst).trans hsecond

theorem bind_error {e : Stop} (hW : Settles W ts s (.error e, s')) :
    Settles (fun n => W n >>= g n) ts s (.error e, s') := by
  obtain ⟨depth, hW⟩ := hW
  exact ⟨depth, fun n hn => bind_of_error (g n) (hW n hn)⟩

end Settles

theorem tokenAt_apply {i : Nat} {t : Token} (h : ts[i]? = some t) (s : Course) :
    tokenAt i ts s = some (.ok t, s) := by
  rw [tokenAt, bind_of_ok _ (show (read : Indexed (List Token)) ts s = some (.ok ts, s) from rfl), h]
  rfl

section Input

variable {x : Input} (hs : s.index ≤ x.last)
include hs

theorem current_apply : current x.tokens s = some (.ok (x.place s.index).current, s) :=
  (bind_of_ok _ (show index x.tokens s = some (.ok s.index, s) from rfl)).trans
    (tokenAt_apply (x.getElem?_tokens hs) s)

theorem isAt_apply (k : Kind) : isAt k x.tokens s = some (.ok ((x.place s.index).current.kind == k), s) :=
  bind_of_ok _ (current_apply hs)

theorem atName_apply : atName x.tokens s = some (.ok (Parser.isNameKind (x.place s.index).current.kind), s) :=
  bind_of_ok _ (current_apply hs)

theorem fail_apply (want : Want) :
    (fail want : Indexed α) x.tokens s = some (.error (.refused (.unexpected want (x.place s.index).current)), s) :=
  bind_of_ok _ (current_apply hs)

theorem next_apply (hk : (x.place s.index).current.kind ≠ .eof) :
    next x.tokens s = some (.ok (x.place s.index).current, ⟨s.index + 1, s.indices⟩) := by
  rw [next, bind_of_ok _ (current_apply hs), if_pos hk]
  rfl

/-- The token after the current one, where the input does not end. -/
theorem peek_apply (hk : (x.place s.index).current.kind ≠ .eof) :
    peek 1 x.tokens s = some (.ok (x.place (s.index + 1)).current, s) := by
  have hlt := x.lt_last_of_ne_eof hs hk
  have hmin : min (s.index + 1) (x.tokens.length - 1) = s.index + 1 := by
    rw [Input.tokens, List.length_append, List.length_cons]
    have hlast : x.last = x.front.length := rfl
    omega
  rw [peek, bind_of_ok _ (show (read : Indexed (List Token)) x.tokens s = some (.ok x.tokens, s) from rfl),
    bind_of_ok _ (show index x.tokens s = some (.ok s.index, s) from rfl), hmin]
  exact tokenAt_apply (x.getElem?_tokens hlt) s

end Input

end Indexed

namespace Input

variable {x : Input} {i : Nat}

/-- Moving past newlines ends at the first place without one, which is no further than the first end of input. -/
theorem exists_skipNewlines (hi : i ≤ x.last) :
    ∃ j, i ≤ j ∧ j ≤ x.last ∧ (x.place i).skipNewlines = x.place j ∧ (x.place j).current.kind ≠ .newline ∧
      ∀ s : Course, s.index = i → s.Sound x.last →
        ∃ s' : Course, s'.index = j ∧ s'.Sound x.last ∧
          Indexed.Settles Indexed.skipNewlines x.tokens s (.ok (), s') := by
  have hstop : ∀ i, (x.place i).current.kind ≠ .newline → ∀ s : Course, s.index = i → s.Sound x.last →
      ∃ s' : Course, s'.index = i ∧ s'.Sound x.last ∧ Indexed.Settles Indexed.skipNewlines x.tokens s (.ok (), s') := by
    intro i hk s hs hsound
    refine ⟨s, hs, hsound, .of_succ Indexed.skipNewlines.eq_2 (.of_eq fun n => ?_)⟩
    rw [Indexed.bind_of_ok _ (Indexed.isAt_apply hsound.bounded _), hs, if_neg (by simpa using hk)]
    rfl
  induction hn : x.last - i generalizing i with
  | zero =>
    obtain rfl : i = x.last := by omega
    have hk : (x.place x.last).current.kind ≠ .newline := by simp [x.place_last, x.kind_eof]
    exact ⟨x.last, hi, hi, Cursor.skipNewlines_of_ne hk, hk, hstop _ hk⟩
  | succ n ih =>
    by_cases hk : (x.place i).current.kind = .newline
    · have hlt : i < x.last := by omega
      obtain ⟨j, hij, hj, hskip, hne, hrun⟩ := ih (i := i + 1) hlt (by omega)
      refine ⟨j, by omega, hj, ?_, hne, fun s hs hsound => ?_⟩
      · rw [← hskip, x.place_eq_back hlt, Cursor.skipNewlines_back_cons _ _ (by rwa [← x.current_place hlt]),
          Cursor.back_nil]
      · subst hs
        obtain ⟨s', hs', hsound', depth, hmore⟩ :=
          hrun ⟨s.index + 1, s.indices⟩ rfl (hsound.move (Nat.le_succ _) hlt)
        refine ⟨s', hs', hsound', .of_succ Indexed.skipNewlines.eq_2 ⟨depth, fun n hn => ?_⟩⟩
        refine (Indexed.bind_of_ok _ (Indexed.isAt_apply hsound.bounded _)).trans ?_
        rw [if_pos (by simpa using hk)]
        exact hmore n hn
    · exact ⟨i, Nat.le_refl _, hi, Cursor.skipNewlines_of_ne hk, hk, hstop i hk⟩

/-- The first token from a place on that is no newline is the same in both sequences. -/
theorem find?_drop_tokens (hi : i ≤ x.last) :
    ((x.tokens.drop i).find? fun t => t.kind != .newline) = some (x.place i).skipNewlines.current := by
  induction hn : x.last - i generalizing i with
  | zero =>
    obtain rfl : i = x.last := by omega
    have hk : (x.place x.last).current.kind ≠ .newline := by simp [x.place_last, x.kind_eof]
    rw [Cursor.skipNewlines_of_ne hk, x.place_last, tokens, last, List.drop_left, List.find?_cons_of_pos]
    simp [x.kind_eof]
  | succ n ih =>
    have hlt : i < x.last := by omega
    have hdrop : x.tokens.drop i = (x.place i).current :: x.tokens.drop (i + 1) := by
      have hlength : i < x.tokens.length := by
        rw [tokens, List.length_append]
        exact Nat.lt_of_lt_of_le hlt (Nat.le_add_right _ _)
      have hget := x.getElem?_tokens hi
      rw [List.getElem?_eq_getElem hlength, Option.some.injEq] at hget
      rw [List.drop_eq_getElem_cons hlength, hget]
    by_cases hk : (x.place i).current.kind = .newline
    · have hskip : (x.place i).skipNewlines = (x.place (i + 1)).skipNewlines := by
        rw [x.place_eq_back hlt, Cursor.skipNewlines_back_cons _ _ (by rwa [← x.current_place hlt]), Cursor.back_nil]
      rw [hdrop, List.find?_cons_of_neg (by simp [hk]), ih hlt (by omega), hskip]
    · rw [hdrop, List.find?_cons_of_pos (by simp [hk]), Cursor.skipNewlines_of_ne hk]

end Input

namespace Follows

variable {α β : Type} {x : Input} {u w i : Nat}

theorem bind {P : Parser α} {W : Nat → Indexed α} {f : α → Parser β} {g : Nat → α → Indexed β}
    (hP : Follows x w P W i)
    (hf : ∀ a j, j ≤ x.last → i + w ≤ j → Follows x (u - w) (f a) (fun n => g n a) j) :
    Follows x u (P >>= f) (fun n => W n >>= g n) i := by
  intro s hs hsound
  obtain ⟨r, hW, hfirst⟩ := hP s hs hsound
  generalize hp : P (x.place i) = p at hfirst
  cases hfirst with
  | refused hsound' hle =>
    rw [Parser.bind_of_error f hp]
    exact ⟨_, hW.bind_error, .refused hsound' hle⟩
  | @read a s' hsound' hle =>
    rw [Parser.bind_of_ok f hp]
    obtain ⟨r, hg, hsecond⟩ := hf a s'.index hsound'.bounded hle s' rfl hsound'
    exact ⟨r, hW.bind_ok hg, hsecond.earlier (by omega) (by omega)⟩

/-- A call goes one deeper. -/
theorem of_succ {P : Parser α} {W W' : Nat → Indexed α} (hW : ∀ n, W (n + 1) = W' n) (h : Follows x w P W' i) :
    Follows x w P W i := by
  intro s hs hsound
  obtain ⟨r, hsettles, hmatch⟩ := h s hs hsound
  exact ⟨r, .of_succ hW hsettles, hmatch⟩

/-- Both do what others do from this index on. -/
theorem of_eq {P P' : Parser α} {W W' : Nat → Indexed α} (h : Follows x w P' W' i) (hP : P (x.place i) = P' (x.place i))
    (hW : ∀ s : Course, s.index = i → s.index ≤ x.last → ∀ n, W n x.tokens s = W' n x.tokens s) :
    Follows x w P W i := by
  intro s hs hsound
  obtain ⟨r, ⟨depth, hsettles⟩, hmatch⟩ := h s hs hsound
  rw [hP]
  exact ⟨r, ⟨depth, fun n hn => (hW s hs hsound.bounded n).trans (hsettles n hn)⟩, hmatch⟩

/-- Both look at something without a move, and then do what follows from it. -/
theorem look {P : Parser α} {W : Indexed α} {f : α → Parser β} {g : Nat → α → Indexed β} (a : α)
    (hp : P (x.place i) = .ok (a, x.place i))
    (hw : ∀ s : Course, s.index ≤ x.last → s.index = i → W x.tokens s = some (.ok a, s))
    (hf : Follows x w (f a) (fun n => g n a) i) : Follows x w (P >>= f) (fun n => W >>= g n) i :=
  hf.of_eq (Parser.bind_of_ok f hp) fun s hs hle n => Indexed.bind_of_ok (g n) (hw s hle hs)

theorem pure (a : α) : Follows x 0 (pure a) (fun _ => pure a) i := by
  intro s hs hsound
  subst hs
  exact ⟨_, .of_eq fun _ => rfl, .read hsound (Nat.le_refl _)⟩

theorem fail (want : Want) : Follows x w (Parser.fail want : Parser α) (fun _ => Indexed.fail want) i := by
  intro s hs hsound
  subst hs
  exact ⟨_, .of_eq fun _ => Indexed.fail_apply hsound.bounded want, .refused hsound (Nat.le_refl _)⟩

theorem fail_bind (want : Want) (f : α → Parser β) (g : Nat → α → Indexed β) :
    Follows x w (Parser.fail want >>= f) (fun n => Indexed.fail want >>= g n) i := by
  intro s hs hsound
  subst hs
  refine ⟨_, .of_eq fun n => ?_, .refused hsound (Nat.le_refl _)⟩
  exact Indexed.bind_of_error (g n) (Indexed.fail_apply hsound.bounded want)

theorem duplicate_bind (what : Once) (name : String) (place : Token) (f : α → Parser β) (g : Nat → α → Indexed β) :
    Follows x w (Parser.duplicate what name place >>= f) (fun n => Indexed.duplicate what name place >>= g n) i := by
  intro s hs hsound
  subst hs
  exact ⟨_, .of_eq fun _ => rfl, .refused hsound (Nat.le_refl _)⟩

theorem current {f : Token → Parser β} {g : Nat → Token → Indexed β}
    (hf : Follows x w (f (x.place i).current) (fun n => g n (x.place i).current) i) :
    Follows x w (Parser.current >>= f) (fun n => Indexed.current >>= g n) i :=
  look _ rfl (fun _ hle hs => hs ▸ Indexed.current_apply hle) hf

theorem kind {f : Kind → Parser β} {g : Nat → Token → Indexed β}
    (hf : Follows x w (f (x.place i).current.kind) (fun n => g n (x.place i).current) i) :
    Follows x w (Parser.kind >>= f) (fun n => Indexed.current >>= g n) i := by
  refine hf.of_eq rfl fun s hs hle n => ?_
  subst hs
  exact Indexed.bind_of_ok (g n) (Indexed.current_apply hle)

theorem isAt {k : Kind} {f : Bool → Parser β} {g : Nat → Bool → Indexed β}
    (hyes : (x.place i).current.kind = k → Follows x w (f true) (fun n => g n true) i)
    (hno : (x.place i).current.kind ≠ k → Follows x w (f false) (fun n => g n false) i) :
    Follows x w (Parser.isAt k >>= f) (fun n => Indexed.isAt k >>= g n) i := by
  refine look ((x.place i).current.kind == k) rfl (fun _ hle hs => hs ▸ Indexed.isAt_apply hle k) ?_
  by_cases hk : (x.place i).current.kind = k
  · rw [beq_iff_eq.2 hk]
    exact hyes hk
  · rw [beq_eq_false_iff_ne.2 hk]
    exact hno hk

/-- The common case of a choice by the current token. -/
theorem ifAt {k : Kind} {A B : Parser β} {A' B' : Nat → Indexed β}
    (hyes : (x.place i).current.kind = k → Follows x w A A' i)
    (hno : (x.place i).current.kind ≠ k → Follows x w B B' i) :
    Follows x w (Parser.isAt k >>= fun b => if b then A else B)
      (fun n => Indexed.isAt k >>= fun b => if b then A' n else B' n) i :=
  isAt hyes hno

theorem next (hk : (x.place i).current.kind ≠ .eof) : Follows x 1 Parser.next (fun _ => Indexed.next) i := by
  intro s hs hsound
  subst hs
  have hlt := x.lt_last_of_ne_eof hsound.bounded hk
  refine ⟨_, .of_eq fun _ => Indexed.next_apply hsound.bounded hk, ?_⟩
  rw [Parser.next, x.advance_place hlt]
  exact .read (hsound.move (Nat.le_succ _) hlt) (Nat.le_refl _)

/-- What comes after newlines starts at a place without one. -/
theorem skipNewlines_bind {f : Unit → Parser β} {g : Nat → Unit → Indexed β} (hi : i ≤ x.last)
    (hf : ∀ j, j ≤ x.last → i ≤ j → (x.place j).current.kind ≠ .newline → Follows x w (f ()) (fun n => g n ()) j) :
    Follows x w (Parser.skipNewlines >>= f) (fun n => Indexed.skipNewlines n >>= g n) i := by
  intro s hs hsound
  obtain ⟨j, hij, hj, hskip, hne, hrun⟩ := Input.exists_skipNewlines hi
  obtain ⟨s', rfl, hsound', hmore⟩ := hrun s hs hsound
  have hp : Parser.skipNewlines (x.place i) = .ok ((), x.place s'.index) := by rw [Parser.skipNewlines, hskip]
  rw [Parser.bind_of_ok f hp]
  obtain ⟨r, hg, hrest⟩ := hf s'.index hj hij hne s' rfl hsound'
  exact ⟨r, hmore.bind_ok hg, hrest.earlier hij (by omega)⟩

theorem skipNewlines (hi : i ≤ x.last) : Follows x 0 Parser.skipNewlines Indexed.skipNewlines i := by
  have hbind : Follows x 0 (Parser.skipNewlines >>= Pure.pure) (fun n => Indexed.skipNewlines n >>= Pure.pure) i :=
    skipNewlines_bind hi fun _ _ _ _ => pure ()
  simpa only [bind_pure] using hbind

/-- Newlines that the parser looks for in vain. -/
theorem skipNewlines_left {f : Unit → Parser β} {W : Nat → Indexed β} (hk : (x.place i).current.kind ≠ .newline)
    (hf : Follows x w (f ()) W i) : Follows x w (Parser.skipNewlines >>= f) W i := by
  intro s hs hsound
  have hp : Parser.skipNewlines (x.place i) = .ok ((), x.place i) := by
    rw [Parser.skipNewlines, Cursor.skipNewlines_of_ne hk]
  rw [Parser.bind_of_ok f hp]
  exact hf s hs hsound

theorem expect {k : Kind} (want : Want) (hk : k ≠ .eof) :
    Follows x 1 (Parser.expect k want) (fun _ => Indexed.expect k want) i := by
  by_cases hat : (x.place i).current.kind = k
  · refine (next (hat ▸ hk)).of_eq (if_pos hat) fun s hs hle n => ?_
    subst hs
    rw [Indexed.expect, Indexed.bind_of_ok _ (Indexed.isAt_apply hle k), if_pos (beq_iff_eq.2 hat)]
  · refine (fail want).of_eq (if_neg hat) fun s hs hle n => ?_
    subst hs
    rw [Indexed.expect, Indexed.bind_of_ok _ (Indexed.isAt_apply hle k), if_neg (by simpa using hat)]

/-- The text of the current token, if that is not where the input ends. -/
theorem text (hk : (x.place i).current.kind ≠ .eof) :
    Follows x 1 (fun c => .ok (c.current.text, c.advance)) (fun _ => Indexed.next >>= fun t => Pure.pure t.text) i := by
  have htext : Follows x 1 (Parser.next >>= fun t => Pure.pure t.text)
      (fun _ => Indexed.next >>= fun t => Pure.pure t.text) i := (next hk).bind fun _ _ _ _ => pure _
  exact htext

theorem expectName (want : Want) : Follows x 1 (Parser.expectName want) (fun _ => Indexed.expectName want) i := by
  by_cases hname : Parser.isNameKind (x.place i).current.kind = true
  · have hk : (x.place i).current.kind ≠ .eof := by
      intro hk
      rw [hk] at hname
      cases hname
    refine (text hk).of_eq (if_pos hname) fun s hs hle n => ?_
    subst hs
    rw [Indexed.expectName, Indexed.bind_of_ok _ (Indexed.atName_apply hle), if_pos hname]
  · refine (fail want).of_eq (if_neg hname) fun s hs hle n => ?_
    subst hs
    rw [Indexed.expectName, Indexed.bind_of_ok _ (Indexed.atName_apply hle), if_neg hname]

theorem expectIdentifier (want : Want) :
    Follows x 1 (Parser.expectIdentifier want) (fun _ => Indexed.expectIdentifier want) i := by
  by_cases hat : (x.place i).current.kind = .identifier
  · refine (text (by simp [hat])).of_eq (if_pos hat) fun s hs hle n => ?_
    subst hs
    rw [Indexed.expectIdentifier, Indexed.bind_of_ok _ (Indexed.isAt_apply hle _), if_pos (beq_iff_eq.2 hat)]
  · refine (fail want).of_eq (if_neg hat) fun s hs hle n => ?_
    subst hs
    rw [Indexed.expectIdentifier, Indexed.bind_of_ok _ (Indexed.isAt_apply hle _), if_neg (by simpa using hat)]

theorem comma : Follows x 0 Parser.comma Indexed.comma i := by
  by_cases hat : (x.place i).current.kind = .mark .comma
  · have hmore : Follows x 0 (Parser.next >>= fun _ => Parser.skipNewlines >>= fun _ => Pure.pure true)
        (fun n => Indexed.next >>= fun _ => Indexed.skipNewlines n >>= fun _ => Pure.pure true) i :=
      (next (by simp [hat])).bind fun _ _ hj _ => (skipNewlines hj).bind fun _ _ _ _ => pure true
    refine hmore.of_eq (if_pos hat) fun s hs hle n => ?_
    subst hs
    rw [Indexed.comma, Indexed.bind_of_ok _ (Indexed.isAt_apply hle _), if_pos (beq_iff_eq.2 hat)]
  · refine (pure false).of_eq (if_neg hat) fun s hs hle n => ?_
    subst hs
    rw [Indexed.comma, Indexed.bind_of_ok _ (Indexed.isAt_apply hle _), if_neg (by simpa using hat)]

/-- The token after a name is looked at in both ways: the first end of input does not come before it. -/
theorem atNamed {f : Bool → Parser β} {g : Nat → Bool → Indexed β}
    (hf : ∀ b, Follows x w (f b) (fun n => g n b) i) :
    Follows x w (Parser.atNamed >>= f) (fun n => Indexed.atNamed >>= g n) i := by
  refine look _ rfl (fun s hle hs => ?_) (hf _)
  subst hs
  rw [Indexed.atNamed, Indexed.bind_of_ok _ (Indexed.isAt_apply hle _)]
  by_cases hclose : ((x.place s.index).current.kind == .mark .rparen) = true
  · rw [if_pos hclose, hclose, Bool.true_or]
    rfl
  rw [if_neg hclose, Indexed.bind_of_ok _ (Indexed.atName_apply hle), Bool.eq_false_iff.2 hclose, Bool.false_or]
  by_cases hname : Parser.isNameKind (x.place s.index).current.kind = true
  · have hk : (x.place s.index).current.kind ≠ .eof := by
      intro hk
      rw [hk] at hname
      cases hname
    have hlt := x.lt_last_of_ne_eof hle hk
    have hpeek : (x.place s.index).peekKind = (x.place (s.index + 1)).current.kind := by
      rw [x.place_eq_back hlt]
      rfl
    rw [if_pos hname, Indexed.bind_of_ok _ (Indexed.peek_apply hle hk), hname, Bool.true_and, hpeek]
    rfl
  · rw [if_neg hname, Bool.eq_false_iff.2 hname, Bool.false_and]
    rfl

/-- Line breaks in front of a pipe. -/
theorem joinLines (hi : i ≤ x.last) :
    Follows x 0 Parser.joinLines
      (fun n => Indexed.pipeAhead >>= fun b => if b then Indexed.skipNewlines n else Pure.pure ()) i := by
  have hahead : ∀ s : Course, s.index = i → Indexed.pipeAhead x.tokens s =
      some (.ok ((x.place i).skipNewlines.current.kind == .mark .pipe), s) := by
    intro s hs
    subst hs
    have hlength : ¬x.tokens.length < s.index := by
      have hlast : x.last = x.front.length := rfl
      rw [Input.tokens, List.length_append]
      omega
    rw [Indexed.pipeAhead, Indexed.bind_of_ok _
        (show (read : Indexed (List Token)) x.tokens s = some (.ok x.tokens, s) from rfl),
      Indexed.bind_of_ok _ (show Indexed.index x.tokens s = some (.ok s.index, s) from rfl), if_neg hlength,
      Input.find?_drop_tokens hi]
    rfl
  by_cases hpipe : (x.place i).skipNewlines.current.kind = .mark .pipe
  · refine (skipNewlines hi).of_eq (if_pos hpipe) fun s hs _ n => ?_
    rw [Indexed.bind_of_ok _ (hahead s hs), if_pos (beq_iff_eq.2 hpipe)]
  · refine (pure ()).of_eq (if_neg hpipe) fun s hs _ n => ?_
    rw [Indexed.bind_of_ok _ (hahead s hs), if_neg (by simpa using hpipe)]

end Follows

end ChainCompiler
