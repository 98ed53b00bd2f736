import ChainCompiler.Yaml.Scalar
import Mathlib.Tactic.Common

/-! Plain scalars on one line. A text that is put at the end of a line reads as itself exactly if it opens as a plain
scalar does and nothing in it ends the scalar. -/

namespace ChainCompiler.Yaml

def indicators : List Char :=
  ['-', '?', ':', ',', '[', ']', '\x7b', '\x7d', '#', '&', '*', '!', '|', '>', '\x27', '"', '%', '@', '\x60']

/-- Whether a plain scalar can start with a text. Three of the indicators are harmless before something else. -/
def opensPlain : List Char → Bool
  | [] => false
  | c :: cs =>
    !isSpace c && (!indicators.contains c || (['-', '?', ':'].contains c && cs.head?.any fun d => !isSpace d))

/-- Whether a plain scalar goes on to the end of a text, which may come after a space. A comment starts only after a
space, a colon counts before a space or at the end, and a space at the end is not part of the scalar. -/
def goesOnPlain : Bool → List Char → Bool
  | spaced, [] => !spaced
  | spaced, c :: cs =>
    if isSpace c then goesOnPlain true cs
    else !(spaced && c == '#') && !(c == ':' && cs.head?.all isSpace) && goesOnPlain false cs

def isPlainLine (cs : List Char) : Bool :=
  cs.all (fun c => isAllowed c && !isBreak c) && (cs.isEmpty || (opensPlain cs && goesOnPlain false cs))

namespace Place

variable {c : Char} {cs : List Char} {line column : Nat}

@[simp] theorem isSpaceHere_cons : isSpaceHere ⟨c :: cs, line, column⟩ = isSpace c := rfl

@[simp] theorem isBreakHere_cons : isBreakHere ⟨c :: cs, line, column⟩ = isBreak c := rfl

@[simp] theorem isAt_cons (d : Char) : isAt ⟨c :: cs, line, column⟩ d = (c == d) := rfl

@[simp] theorem advance_append (w : List Char) :
    advance ⟨w ++ cs, line, column⟩ w.length = ⟨cs, line, column + w.length⟩ := by
  simp [advance]

@[simp] theorem advance_one : advance ⟨c :: cs, line, column⟩ = ⟨cs, line, column + 1⟩ := rfl

theorem isBoundary_of_pos (h : 0 < column) : isBoundary ⟨cs, line, column⟩ = false := by
  simp [isBoundary, isTriple, Nat.pos_iff_ne_zero.1 h]

theorem isBreak_newline : isBreak '\n' = true := rfl

end Place

theorem isSpace_of_isBreak {c : Char} (h : isBreak c = true) : isSpace c = false := by
  simp only [isBreak, Bool.or_eq_true, beq_iff_eq] at h
  rcases h with (((rfl | rfl) | rfl) | rfl) | rfl <;> rfl

theorem isBreak_of_isSpace {c : Char} (h : isSpace c = true) : isBreak c = false := by
  by_contra hbreak
  rw [isSpace_of_isBreak (by simpa using hbreak)] at h
  cases h

theorem Place.isSpaceHere_of_isBreakHere (p : Place) (h : p.isBreakHere = true) : p.isSpaceHere = false := by
  obtain ⟨_ | ⟨c, cs⟩, line, column⟩ := p
  · rfl
  · exact isSpace_of_isBreak h

/-- Whether a character ends a word of a plain scalar, before others. -/
def endsWord (c : Char) (cs : List Char) : Bool :=
  isSpace c || isBreak c || (c == ':' && cs.head?.all fun d => isSpace d || isBreak d)

theorem plainLength?_cons (c : Char) (cs : List Char) :
    plainLength? false (c :: cs) = if endsWord c cs then some 0 else (plainLength? false cs).map (· + 1) := by
  simp [plainLength?, endsWord]

namespace Gap

variable {c : Char} {cs : List Char} {line column n : Nat} {indent : Int} {g : Gap} {p : Place}

theorem read_of_word (hspace : isSpace c = false) (hbreak : isBreak c = false) :
    read indent (n + 1) g ⟨c :: cs, line, column⟩ = some (g, ⟨c :: cs, line, column⟩) := by
  simp [read, hspace, hbreak]

/-- A space is kept in a line. -/
theorem read_of_space (hg : g.first = none) (hspace : isSpace c = true) :
    read indent (n + 1) g ⟨c :: cs, line, column⟩ =
      read indent n { g with spaces := g.spaces ++ [c] } ⟨cs, line, column + 1⟩ := by
  simp [read, hspace, hg]

/-- In later lines a space does not count. -/
theorem read_of_space_after (hg : g.first.isSome = true) (hspace : isSpace c = true) :
    read indent (n + 1) g ⟨c :: cs, line, column⟩ =
      if c == '\t' && (column : Int) < indent then none else read indent n g ⟨cs, line, column + 1⟩ := by
  simp [read, hspace, hg]

theorem read_of_break (hg : g.first = none) (hbreak : p.isBreakHere = true) :
    read indent (n + 1) g p = read indent n ⟨[], some p.readBreak.1, g.more⟩ p.readBreak.2 := by
  simp [read, p.isSpaceHere_of_isBreakHere hbreak, hbreak, hg]

theorem read_of_break_after (hg : g.first.isSome = true) (hbreak : p.isBreakHere = true) :
    read indent (n + 1) g p = read indent n { g with more := g.more ++ p.readBreak.1 } p.readBreak.2 := by
  simp [read, p.isSpaceHere_of_isBreakHere hbreak, hbreak, hg]

end Gap

section Step

variable {flow : Bool} {indent : Int} {n k : Nat} {g : Gap} {p : Place}

theorem plainFrom_of_end (h : (p.isBoundary || p.isAt '#') = true) :
    plainFrom flow indent (n + 1) g p = some ⟨[], g.first.isSome, p⟩ := by
  rw [plainFrom, if_pos h]

theorem plainFrom_of_colon (h : (p.isBoundary || p.isAt '#') = false) (hk : plainLength? flow p.rest = some 0)
    (hspace : p.isSpaceHere = false) (hbreak : p.isBreakHere = false) :
    plainFrom flow indent (n + 1) g p = some ⟨[], g.first.isSome, p⟩ := by
  have hadvance : p.advance 0 = p := rfl
  rw [plainFrom, if_neg (by simp [h]), hk]
  simp [hadvance, hspace, hbreak]

/-- A word of a plain scalar, and then what follows the gap after it. -/
theorem plainFrom_of_word (h : (p.isBoundary || p.isAt '#') = false) (hk : plainLength? flow p.rest = some (k + 1)) :
    plainFrom flow indent (n + 1) g p =
      if (p.advance (k + 1)).isSpaceHere || (p.advance (k + 1)).isBreakHere then
        (Gap.read indent n .empty (p.advance (k + 1))).bind fun x =>
          if !flow && (x.2.column : Int) < indent then
            some ⟨g.joined ++ p.rest.take (k + 1), x.1.first.isSome, x.2⟩
          else (plainFrom flow indent n x.1 x.2).map fun more =>
            { more with text := g.joined ++ p.rest.take (k + 1) ++ more.text }
      else some ⟨g.joined ++ p.rest.take (k + 1), false, p.advance (k + 1)⟩ := by
  rw [plainFrom, if_neg (by simp [h]), hk]
  simp only [Option.bind_eq_bind, Option.bind_some, Nat.add_one_ne_zero, if_false]
  cases hgap : (p.advance (k + 1)).isSpaceHere || (p.advance (k + 1)).isBreakHere with
  | false => rfl
  | true =>
    cases Gap.read indent n .empty (p.advance (k + 1)) with
    | none => rfl
    | some x =>
      simp only [Bool.not_true, Option.bind_some]
      cases hcolumn : !flow && decide ((x.2.column : Int) < indent) with
      | false =>
        cases plainFrom flow indent n x.1 x.2 <;> simp
      | true => simp

end Step

section Forward

variable {u next : List Char} {c : Char} {line column n : Nat} {g : Gap}

/-- The first word of a line, and what is left of it. -/
theorem exists_word (hgo : goesOnPlain false u = true) (hunbroken : ∀ d ∈ u, isBreak d = false) (next : List Char) :
    ∃ w v, u = w ++ v ∧ plainLength? false (u ++ '\n' :: next) = some w.length ∧
      (v = [] ∨ ∃ d v', v = d :: v' ∧ isSpace d = true ∧ goesOnPlain true v' = true) := by
  induction u with
  | nil => exact ⟨[], [], rfl, rfl, .inl rfl⟩
  | cons d u ih =>
    rw [List.forall_mem_cons] at hunbroken
    rw [goesOnPlain] at hgo
    by_cases hspace : isSpace d = true
    · rw [if_pos hspace] at hgo
      refine ⟨[], d :: u, rfl, ?_, .inr ⟨d, u, rfl, hspace, hgo⟩⟩
      rw [List.cons_append, plainLength?_cons, endsWord, hspace]
      rfl
    · rw [if_neg hspace] at hgo
      simp only [Bool.false_and, Bool.not_false, Bool.true_and, Bool.and_eq_true, Bool.not_eq_true'] at hgo
      obtain ⟨w, v, hu, hlength, hv⟩ := ih hgo.2 hunbroken.2
      have hcolon : (d == ':' && ((u ++ '\n' :: next).head?.all fun x => isSpace x || isBreak x)) = false := by
        cases u with
        | nil =>
          have hd : d ≠ ':' := by simpa using hgo.1
          simp [hd]
        | cons x rest =>
          have hx : isBreak x = false := hunbroken.2 x (by simp)
          simpa [hx] using hgo.1
      refine ⟨d :: w, v, by rw [hu, List.cons_append], ?_, hv⟩
      rw [List.cons_append, plainLength?_cons, endsWord, hcolon, hunbroken.1, hlength]
      simp [hspace]

theorem goesOnPlain_true_cons {d : Char} (hspace : isSpace d = false) (h : goesOnPlain true (d :: u) = true) :
    d ≠ '#' ∧ goesOnPlain false (d :: u) = true := by
  rw [goesOnPlain, if_neg (by simp [hspace])] at h ⊢
  simp only [Bool.true_and, Bool.and_eq_true, Bool.not_eq_true', beq_eq_false_iff_ne] at h
  simp [h]

/-- After a space there are further spaces and then a word. -/
theorem exists_spaces (h : goesOnPlain true u = true) :
    ∃ x d v, u = x ++ d :: v ∧ (∀ s ∈ x, isSpace s = true) ∧ isSpace d = false ∧ d ≠ '#' ∧
      goesOnPlain false (d :: v) = true := by
  induction u with
  | nil => cases h
  | cons d u ih =>
    by_cases hspace : isSpace d = true
    · rw [goesOnPlain, if_pos hspace] at h
      obtain ⟨x, e, v, rfl, hx, he⟩ := ih h
      refine ⟨d :: x, e, v, rfl, ?_, he⟩
      rw [List.forall_mem_cons]
      exact ⟨hspace, hx⟩
    · have hspace : isSpace d = false := by simpa using hspace
      obtain ⟨hhash, hgo⟩ := goesOnPlain_true_cons hspace h
      exact ⟨[], d, u, rfl, by simp, hspace, hhash, hgo⟩

/-- Spaces in a line are kept as they are. -/
theorem Gap.read_spaces {x rest : List Char} (hx : ∀ s ∈ x, isSpace s = true) (hspace : isSpace c = false)
    (hbreak : isBreak c = false) (hn : x.length < n) (y : List Char) :
    read 1 n ⟨y, none, []⟩ ⟨x ++ c :: rest, line, column⟩ =
      some (⟨y ++ x, none, []⟩, ⟨c :: rest, line, column + x.length⟩) := by
  induction x generalizing n y column with
  | nil =>
    obtain ⟨n, rfl⟩ : ∃ k, n = k + 1 := ⟨n - 1, by omega⟩
    rw [List.nil_append, read_of_word hspace hbreak, List.append_nil]
    rfl
  | cons s x ih =>
    rw [List.length_cons] at hn
    obtain ⟨n, rfl⟩ : ∃ k, n = k + 1 := ⟨n - 1, by omega⟩
    rw [List.forall_mem_cons] at hx
    rw [List.cons_append, read_of_space rfl hx.1, ih hx.2 (by omega), List.length_cons, List.append_assoc,
      List.singleton_append, Nat.add_assoc, Nat.add_comm 1]

/-- The end of a line ends a gap before a word at the start of the next line. -/
theorem Gap.read_newline (hspace : isSpace c = false) (hbreak : isBreak c = false) :
    read 1 (n + 2) .empty ⟨'\n' :: c :: next, line, column⟩ =
      some (⟨[], some ['\n'], []⟩, ⟨c :: next, line + 1, 0⟩) :=
  (read_of_break rfl rfl).trans (read_of_word hspace hbreak)

/-- A plain scalar goes on over the spaces of a line to its end, and no further if a word starts the next line. -/
theorem plainFrom_of_goesOnPlain {d : Char} (hspace : isSpace c = false) (hbreak : isBreak c = false)
    (hd : isSpace d = false) (hhash : d ≠ '#') (hgo : goesOnPlain false (d :: u) = true)
    (hunbroken : ∀ e ∈ d :: u, isBreak e = false) (hcolumn : 0 < column) (hn : u.length + 2 ≤ n) (y : List Char) :
    plainFrom false 1 (n + 1) ⟨y, none, []⟩ ⟨d :: u ++ '\n' :: c :: next, line, column⟩ =
      some ⟨y ++ d :: u, true, ⟨c :: next, line + 1, 0⟩⟩ := by
  induction hlength : u.length using Nat.strongRecOn generalizing u d n y column with
  | _ m ih =>
    obtain ⟨w, v, hwv, hword, hv⟩ := exists_word hgo hunbroken (c :: next)
    -- the line starts with a word, since it does not start with a space
    obtain ⟨w, rfl⟩ : ∃ w', w = d :: w' := by
      cases w with
      | cons e w =>
        obtain ⟨rfl, -⟩ := List.cons.inj hwv
        exact ⟨w, rfl⟩
      | nil =>
        rcases hv with rfl | ⟨e, v', rfl, he, -⟩
        · cases hwv
        · obtain ⟨rfl, -⟩ := List.cons.inj hwv
          rw [hd] at he
          cases he
    have hstart : (Place.isBoundary ⟨d :: u ++ '\n' :: c :: next, line, column⟩ ||
        Place.isAt ⟨d :: u ++ '\n' :: c :: next, line, column⟩ '#') = false := by
      rw [Place.isBoundary_of_pos hcolumn]
      simpa using hhash
    have hadvance : Place.advance ⟨d :: w ++ (v ++ '\n' :: c :: next), line, column⟩ (w.length + 1) =
        ⟨v ++ '\n' :: c :: next, line, column + (w.length + 1)⟩ := Place.advance_append (d :: w)
    have htake : (d :: w ++ (v ++ '\n' :: c :: next)).take (w.length + 1) = d :: w := List.take_left' rfl
    rw [plainFrom_of_word hstart hword, hwv, List.append_assoc, hadvance, htake]
    obtain ⟨n, rfl⟩ : ∃ k, n = k + 2 := ⟨n - 2, by omega⟩
    rcases hv with rfl | ⟨e, v', rfl, he, hgo'⟩
    · have hgap : (Place.isSpaceHere ⟨[] ++ '\n' :: c :: next, line, column + (w.length + 1)⟩ ||
          Place.isBreakHere ⟨[] ++ '\n' :: c :: next, line, column + (w.length + 1)⟩) = true := rfl
      rw [if_pos hgap, List.nil_append, Gap.read_newline hspace hbreak]
      simp [Gap.joined]
    · obtain ⟨x, d', v'', rfl, hx, hd', hhash', hgo''⟩ := exists_spaces hgo'
      have hgap : ∀ s ∈ e :: x, isSpace s = true := by
        rw [List.forall_mem_cons]
        exact ⟨he, hx⟩
      have hunbroken' : ∀ a ∈ d' :: v'', isBreak a = false := by
        intro a ha
        refine hunbroken a ?_
        rw [hwv]
        simp [List.mem_cons.1 ha]
      have hsize : u.length = w.length + (x.length + v''.length + 2) := by
        have hcount := congrArg List.length hwv
        simp at hcount
        omega
      have hread : Gap.read 1 (n + 2) .empty
          ⟨(e :: x ++ d' :: v'') ++ '\n' :: c :: next, line, column + (w.length + 1)⟩ =
            some (⟨e :: x, none, []⟩,
              ⟨d' :: v'' ++ '\n' :: c :: next, line, column + (w.length + 1) + (e :: x).length⟩) := by
        rw [List.append_assoc]
        exact Gap.read_spaces hgap hd' (hunbroken' d' (by simp)) (by simp; omega) []
      have hmore : plainFrom false 1 (n + 2) ⟨e :: x, none, []⟩
          ⟨d' :: v'' ++ '\n' :: c :: next, line, column + (w.length + 1) + (e :: x).length⟩ =
            some ⟨e :: x ++ d' :: v'', true, ⟨c :: next, line + 1, 0⟩⟩ :=
        ih v''.length (by omega) hd' hhash' hgo'' hunbroken' (by omega) (by omega) (e :: x) rfl
      have hhere : (Place.isSpaceHere ⟨(e :: x ++ d' :: v'') ++ '\n' :: c :: next, line, column + (w.length + 1)⟩ ||
          Place.isBreakHere ⟨(e :: x ++ d' :: v'') ++ '\n' :: c :: next, line, column + (w.length + 1)⟩) = true := by
        simp [he]
      rw [List.cons_append] at hread hhere
      rw [if_pos hhere, hread, Option.bind_some, if_neg (by simp; omega), hmore]
      simp [Gap.joined]

theorem plain_of_goesOnPlain {d : Char} (hspace : isSpace c = false) (hbreak : isBreak c = false)
    (hd : isSpace d = false) (hhash : d ≠ '#') (hgo : goesOnPlain false (d :: u) = true)
    (hunbroken : ∀ e ∈ d :: u, isBreak e = false) (hcolumn : 0 < column) :
    plain false 1 ⟨d :: u ++ '\n' :: c :: next, line, column⟩ = some ⟨d :: u, true, ⟨c :: next, line + 1, 0⟩⟩ :=
  plainFrom_of_goesOnPlain hspace hbreak hd hhash hgo hunbroken hcolumn (by simp) []

end Forward

section Backward

variable {u v next : List Char} {c : Char} {n : Nat} {g g' : Gap} {p r : Place}

theorem Place.isBreakHere_iff : p.isBreakHere = true ↔ ∃ d cs, p.rest = d :: cs ∧ isBreak d = true := by
  obtain ⟨_ | ⟨d, cs⟩, line, column⟩ := p
  · simp [isBreakHere, peek?]
  · simp

/-- A line break is one character or two, and leads to the start of a line. -/
theorem Place.readBreak_of_isBreakHere (h : p.isBreakHere = true) :
    ∃ d x, p.rest = d :: x ++ p.readBreak.2.rest ∧ isBreak d = true ∧ (x = [] ∨ d = '\r' ∧ x = ['\n']) ∧
      p.readBreak.2.column = 0 ∧ ∃ b, isBreak b = true ∧ p.readBreak.1 = [b] := by
  obtain ⟨rest, line, column⟩ := p
  obtain ⟨d, cs, hrest, hd⟩ := isBreakHere_iff.1 h
  simp only at hrest
  subst hrest
  unfold readBreak
  split
  · next heq =>
    obtain ⟨rfl, rfl⟩ := List.cons.inj heq
    exact ⟨'\r', ['\n'], rfl, rfl, .inr ⟨rfl, rfl⟩, rfl, '\n', rfl, rfl⟩
  · next d' cs' _ heq =>
    obtain ⟨rfl, rfl⟩ := List.cons.inj heq
    split
    · exact ⟨d, [], rfl, hd, .inl rfl, rfl, d, hd, rfl⟩
    · exact ⟨d, [], rfl, hd, .inl rfl, rfl, '\n', rfl, rfl⟩
  · next heq => cases heq

/-- A line break before the end of a line is inside of it or that end. -/
theorem Place.rest_readBreak (h : p.isBreakHere = true) (hrest : p.rest = v ++ '\n' :: next) :
    p.readBreak.2.rest = next ∨ ∃ x v', x ≠ [] ∧ v = x ++ v' ∧ p.readBreak.2.rest = v' ++ '\n' :: next := by
  obtain ⟨d, x, hd, -, hx, -⟩ := readBreak_of_isBreakHere h
  rw [hrest, List.cons_append] at hd
  rcases hx with rfl | ⟨rfl, rfl⟩
  · cases v with
    | nil => exact .inl (List.cons.inj hd).2.symm
    | cons e v => exact .inr ⟨[e], v, by simp, rfl, (List.cons.inj hd).2.symm⟩
  · match v, hd with
    | [e], hd => exact .inl (List.cons.inj (List.cons.inj hd).2).2.symm
    | e :: e' :: v, hd => exact .inr ⟨[e, e'], v, by simp, rfl, (List.cons.inj (List.cons.inj hd).2).2.symm⟩

namespace Gap

/-- No gap is left before a word. -/
theorem read_at_word (hspace : isSpace c = false) (hbreak : isBreak c = false) (hrest : p.rest = c :: next)
    (hn : p.rest.length ≤ n) (h : read 1 n g p = some (g', r)) : g' = g ∧ r = p := by
  obtain ⟨rest, line, column⟩ := p
  simp only at hrest
  subst hrest
  obtain ⟨n, rfl⟩ : ∃ k, n = k + 1 := ⟨n - 1, by simp at hn; omega⟩
  rw [read_of_word hspace hbreak] at h
  obtain ⟨rfl, rfl⟩ := Prod.mk.inj (Option.some.inj h)
  exact ⟨rfl, rfl⟩

/-- After a break: each further break counts as one character, and a line that starts with a space has one that does not
count. -/
theorem read_after_break (hspace : isSpace c = false) (hbreak : isBreak c = false)
    (hrest : p.rest = v ++ '\n' :: c :: next) (hn : p.rest.length ≤ n) (hg : g.first.isSome = true)
    (h : read 1 n g p = some (g', r)) :
    g'.first = g.first ∧ (r.column = 0 ∨ ∃ x d u, v = x ++ d :: u ∧ isSpace d = false ∧ isBreak d = false ∧
      r.rest = d :: u ++ '\n' :: c :: next ∧
      g'.more.length + 1 ≤ g.more.length + x.length + if p.column = 0 then 0 else 1) := by
  induction n generalizing g p v with
  | zero => simp [hrest] at hn
  | succ n ih =>
    cases hhere : p.isBreakHere with
    | true =>
      obtain ⟨d, x, hd, -, -, hcolumn, b, -, hb⟩ := Place.readBreak_of_isBreakHere hhere
      have hn' : p.readBreak.2.rest.length ≤ n := by
        have hlength := congrArg List.length hd
        simp at hlength
        omega
      rw [read_of_break_after hg hhere, hb] at h
      rcases Place.rest_readBreak hhere hrest with hnext | ⟨x₀, v', hx₀, rfl, hrest'⟩
      · obtain ⟨rfl, rfl⟩ := read_at_word hspace hbreak hnext hn' h
        exact ⟨rfl, .inl hcolumn⟩
      · obtain ⟨hfirst, hr⟩ := ih (g := { g with more := g.more ++ [b] }) hrest' hn' hg h
        refine ⟨hfirst, hr.imp_right ?_⟩
        rintro ⟨x, d, u, rfl, hd, hd', hr, hmore⟩
        have hpos := List.length_pos_iff.2 hx₀
        refine ⟨x₀ ++ x, d, u, by simp, hd, hd', hr, ?_⟩
        rw [hcolumn] at hmore
        simp at hmore ⊢
        omega
    | false =>
      obtain ⟨rest, line, column⟩ := p
      simp only at hrest
      subst hrest
      obtain ⟨d, v, rfl⟩ : ∃ d v', v = d :: v' := by
        cases v with
        | nil => cases hhere
        | cons d v => exact ⟨d, v, rfl⟩
      rw [List.cons_append] at h
      cases hd : isSpace d with
      | true =>
        rw [read_of_space_after hg hd] at h
        split at h
        · cases h
        · obtain ⟨hfirst, hr⟩ := ih rfl (by simpa using hn) hg h
          refine ⟨hfirst, hr.imp_right ?_⟩
          rintro ⟨x, e, u, rfl, he, he', hr, hmore⟩
          refine ⟨d :: x, e, u, rfl, he, he', hr, ?_⟩
          simp at hmore ⊢
          omega
      | false =>
        rw [read_of_word hd hhere] at h
        obtain ⟨rfl, rfl⟩ := Prod.mk.inj (Option.some.inj h)
        refine ⟨rfl, ?_⟩
        cases column with
        | zero => exact .inl rfl
        | succ column => exact .inr ⟨[], d, v, rfl, hd, hhere, rfl, by simp⟩

theorem length_joined_le {b : Char} (hg : g.first = some [b]) : g.joined.length ≤ g.more.length + 1 := by
  unfold joined
  rw [hg]
  simp only
  split
  · split <;> simp
  · simp

/-- Within a line a gap is kept as it is. Over a line break it gets shorter, unless it ends at the start of a line. -/
theorem read_cases (hspace : isSpace c = false) (hbreak : isBreak c = false) (hrest : p.rest = v ++ '\n' :: c :: next)
    (hn : p.rest.length ≤ n) (hcolumn : 0 < p.column) (y : List Char)
    (h : read 1 n ⟨y, none, []⟩ p = some (g', r)) :
    r.column = 0 ∨ ∃ x d u, v = x ++ d :: u ∧ isSpace d = false ∧ isBreak d = false ∧ 0 < r.column ∧
      r.rest = d :: u ++ '\n' :: c :: next ∧
      ((∀ s ∈ x, isSpace s = true) ∧ g' = ⟨y ++ x, none, []⟩ ∨ g'.joined.length < x.length) := by
  induction n generalizing y p v with
  | zero => simp [hrest] at hn
  | succ n ih =>
    cases hhere : p.isBreakHere with
    | true =>
      obtain ⟨d, x, hd, -, -, hcolumn', b, -, hb⟩ := Place.readBreak_of_isBreakHere hhere
      have hn' : p.readBreak.2.rest.length ≤ n := by
        have hlength := congrArg List.length hd
        simp at hlength
        omega
      rw [read_of_break rfl hhere, hb] at h
      rcases Place.rest_readBreak hhere hrest with hnext | ⟨x₀, v', hx₀, rfl, hrest'⟩
      · obtain ⟨rfl, rfl⟩ := read_at_word hspace hbreak hnext hn' h
        exact .inl hcolumn'
      · obtain ⟨hfirst, hr⟩ := read_after_break hspace hbreak hrest' hn' rfl h
        rw [or_iff_not_imp_left]
        intro hr0
        obtain ⟨x, d, u, rfl, hd, hd', hr, hmore⟩ := hr.resolve_left hr0
        refine ⟨x₀ ++ x, d, u, by simp, hd, hd', Nat.pos_of_ne_zero hr0, hr, .inr ?_⟩
        have hjoined := length_joined_le hfirst
        have hpos := List.length_pos_iff.2 hx₀
        rw [hcolumn'] at hmore
        simp at hmore ⊢
        omega
    | false =>
      obtain ⟨rest, line, column⟩ := p
      simp only at hrest
      subst hrest
      obtain ⟨d, v, rfl⟩ : ∃ d v', v = d :: v' := by
        cases v with
        | nil => cases hhere
        | cons d v => exact ⟨d, v, rfl⟩
      rw [List.cons_append] at h
      cases hd : isSpace d with
      | true =>
        rw [read_of_space rfl hd] at h
        refine (ih rfl (by simpa using hn) (by simp) (y ++ [d]) h).imp_right ?_
        rintro ⟨x, e, u, rfl, he, he', hr0, hr, hx⟩
        refine ⟨d :: x, e, u, rfl, he, he', hr0, hr, hx.imp ?_ ?_⟩
        · rintro ⟨hspaces, rfl⟩
          refine ⟨?_, by simp⟩
          rw [List.forall_mem_cons]
          exact ⟨hd, hspaces⟩
        · intro hlength
          rw [List.length_cons]
          omega
      | false =>
        rw [read_of_word hd hhere] at h
        obtain ⟨rfl, rfl⟩ := Prod.mk.inj (Option.some.inj h)
        exact .inr ⟨[], d, v, rfl, hd, hhere, hcolumn, rfl, .inl ⟨by simp, by simp⟩⟩

end Gap

/-- A word is the start of a line that goes on as what is left of it does. -/
theorem goesOnPlain_of_word {k : Nat} (h : plainLength? false (u ++ '\n' :: next) = some k) :
    ∃ w v, u = w ++ v ∧ w.length = k ∧ (∀ d ∈ w, isBreak d = false) ∧
      (∀ d v', v = d :: v' → endsWord d (v' ++ '\n' :: next) = true) ∧
      (goesOnPlain false v = true → goesOnPlain false u = true) := by
  induction u generalizing k with
  | nil =>
    cases h
    exact ⟨[], [], rfl, rfl, by simp, by simp, id⟩
  | cons d u ih =>
    rw [List.cons_append, plainLength?_cons] at h
    split at h
    · next hends =>
      cases h
      refine ⟨[], d :: u, rfl, rfl, by simp, ?_, id⟩
      rintro _ _ ⟨⟩
      exact hends
    · next hends =>
      obtain ⟨k, hk, rfl⟩ := Option.map_eq_some_iff.1 h
      obtain ⟨w, v, rfl, rfl, hw, hv, hgo⟩ := ih hk
      simp only [endsWord, Bool.or_eq_true, not_or, Bool.not_eq_true] at hends
      refine ⟨d :: w, v, rfl, rfl, ?_, hv, fun hv' => ?_⟩
      · rw [List.forall_mem_cons]
        exact ⟨hends.1.2, hw⟩
      · have hcolon : (d == ':' && (w ++ v).head?.all isSpace) = false := by
          have hcolon := hends.2
          cases hwv : w ++ v with
          | nil =>
            rw [hwv] at hcolon
            simpa [Place.isBreak_newline] using hcolon
          | cons e rest =>
            rw [hwv] at hcolon
            simp at hcolon ⊢
            exact fun hd => (hcolon hd).1
        rw [goesOnPlain, if_neg (by simp [hends.1.1]), hcolon, hgo hv']
        rfl

theorem exists_plainLength? (cs : List Char) : ∃ k, plainLength? false cs = some k := by
  induction cs with
  | nil => exact ⟨0, rfl⟩
  | cons d cs ih =>
    obtain ⟨k, hk⟩ := ih
    rw [plainLength?_cons, hk]
    split
    · exact ⟨0, rfl⟩
    · exact ⟨k + 1, rfl⟩

theorem goesOnPlain_of_spaces {x : List Char} {d : Char} (hx : ∀ s ∈ x, isSpace s = true) (hd : isSpace d = false)
    (hhash : d ≠ '#') (hgo : goesOnPlain false (d :: u) = true) : goesOnPlain true (x ++ d :: u) = true := by
  induction x with
  | nil =>
    rw [goesOnPlain, if_neg (by simp [hd])] at hgo
    rw [List.nil_append, goesOnPlain, if_neg (by simp [hd])]
    simpa [hhash] using hgo
  | cons s x ih =>
    rw [List.forall_mem_cons] at hx
    rw [List.cons_append, goesOnPlain, if_pos hx.1]
    exact ih hx.2

/-- What is read of a line as a plain scalar is shorter than the line, or else the line is its own reading. -/
def Reread (g : Gap) (d : Char) (u text : List Char) : Prop :=
  text.length < g.joined.length + (u.length + 1) ∨
    text = g.joined ++ d :: u ∧ d ≠ '#' ∧ goesOnPlain false (d :: u) = true ∧ ∀ e ∈ d :: u, isBreak e = false

namespace Reread

variable {d e : Char} {w x : List Char}

theorem of_nothing : Reread g d u [] := by
  left
  rw [List.length_nil]
  omega

/-- The scalar ends with the first word. -/
theorem of_word (hline : d :: u = w ++ v) (hhash : d ≠ '#') (hw : ∀ e ∈ w, isBreak e = false)
    (hgo : goesOnPlain false v = true → goesOnPlain false (d :: u) = true) : Reread g d u (g.joined ++ w) := by
  cases v with
  | nil =>
    rw [List.append_nil] at hline
    exact .inr ⟨by rw [hline], hhash, hgo rfl, by rwa [hline]⟩
  | cons e v =>
    have hsize := congrArg List.length hline
    left
    simp at hsize ⊢
    omega

/-- Spaces between the first word and the others are kept. -/
theorem of_spaces {text : List Char} (hline : d :: u = w ++ (x ++ e :: v)) (hhash : d ≠ '#')
    (hw : ∀ e ∈ w, isBreak e = false)
    (hgo : goesOnPlain false (x ++ e :: v) = true → goesOnPlain false (d :: u) = true) (hx : x ≠ [])
    (hspaces : ∀ s ∈ x, isSpace s = true) (he : isSpace e = false) (hmore : Reread ⟨x, none, []⟩ e v text) :
    Reread g d u (g.joined ++ w ++ text) := by
  obtain ⟨b, x, rfl⟩ := List.exists_cons_of_ne_nil hx
  rw [List.forall_mem_cons] at hspaces
  rcases hmore with hlt | ⟨heq, hhash', hgo', hunbroken⟩
  · have hsize := congrArg List.length hline
    left
    simp [Gap.joined] at hlt hsize ⊢
    omega
  · refine .inr ⟨?_, hhash, hgo ?_, ?_⟩
    · rw [heq, hline]
      simp [Gap.joined]
    · rw [List.cons_append, goesOnPlain, if_pos hspaces.1]
      exact goesOnPlain_of_spaces hspaces.2 he hhash' hgo'
    · rw [hline, List.cons_append, List.forall_mem_append, List.forall_mem_cons, List.forall_mem_append]
      exact ⟨hw, isBreak_of_isSpace hspaces.1, fun a ha => isBreak_of_isSpace (hspaces.2 a ha), hunbroken⟩

/-- A gap that gets shorter makes the reading shorter than the line. -/
theorem of_gap {text : List Char} {g' : Gap} (hline : d :: u = w ++ (x ++ e :: v))
    (hx : g'.joined.length < x.length) (hmore : Reread g' e v text) : Reread g d u (g.joined ++ w ++ text) := by
  have hle : text.length ≤ g'.joined.length + (v.length + 1) := by
    rcases hmore with hlt | ⟨heq, -⟩
    · exact Nat.le_of_lt hlt
    · simp [heq]
  have hsize := congrArg List.length hline
  left
  simp at hsize ⊢
  omega

end Reread

theorem reread_of_plainFrom {d : Char} {s : Scanned} (hspace : isSpace c = false) (hbreak : isBreak c = false)
    (hd : isSpace d = false) (hd' : isBreak d = false) (hrest : p.rest = d :: u ++ '\n' :: c :: next)
    (hcolumn : 0 < p.column) (hn : p.rest.length ≤ n) (h : plainFrom false 1 n g p = some s) :
    Reread g d u s.text := by
  induction n generalizing g p u d s with
  | zero => simp [hrest] at hn
  | succ n ih =>
    cases hends : p.isBoundary || p.isAt '#' with
    | true =>
      rw [plainFrom_of_end hends] at h
      cases h
      exact .of_nothing
    | false =>
      obtain ⟨rest, line, column⟩ := p
      simp only at hrest hcolumn
      subst hrest
      have hhash : d ≠ '#' := by
        simp only [Bool.or_eq_false_iff] at hends
        simpa using hends.2
      obtain ⟨k, hk⟩ := exists_plainLength? (d :: u ++ '\n' :: c :: next)
      obtain ⟨w, v, hwv, hlength, hw, hv, hgo⟩ := goesOnPlain_of_word hk
      cases k with
      | zero =>
        rw [plainFrom_of_colon hends hk hd hd'] at h
        cases h
        exact .of_nothing
      | succ k =>
        have hadvance : Place.advance ⟨w ++ (v ++ '\n' :: c :: next), line, column⟩ (k + 1) =
            ⟨v ++ '\n' :: c :: next, line, column + (k + 1)⟩ := by
          rw [← hlength]
          exact Place.advance_append w
        have htake : (w ++ (v ++ '\n' :: c :: next)).take (k + 1) = w := List.take_left' hlength
        have hsmaller : v.length + (next.length + 2) ≤ n := by
          have hsize := congrArg List.length hwv
          simp at hn hsize
          omega
        rw [plainFrom_of_word hends hk, hwv, List.append_assoc, hadvance, htake] at h
        split at h
        · next hgap =>
          obtain ⟨⟨g', r⟩, hread, hscan⟩ := Option.bind_eq_some_iff.1 h
          split at hscan
          · -- the next line is not indented: the scalar ends with this word
            cases hscan
            exact .of_word hwv hhash hw hgo
          · next hout =>
            have hpos : r.column ≠ 0 := by
              rintro hzero
              simp [hzero] at hout
            have hcases := Gap.read_cases hspace hbreak rfl (by simpa using hsmaller) (Nat.succ_pos _) [] hread
            obtain ⟨x, e, v, rfl, he, he', hr0, hr, hx⟩ := hcases.resolve_left hpos
            obtain ⟨more, hmore, rfl⟩ := Option.map_eq_some_iff.1 hscan
            have hmore' := ih he he' hr hr0 (by rw [hr]; simp at hsmaller ⊢; omega) hmore
            rcases hx with ⟨hspaces, rfl⟩ | hx
            · have hne : x ≠ [] := by
                rintro rfl
                simp [he, he'] at hgap
              exact .of_spaces hwv hhash hw hgo hne hspaces he hmore'
            · exact .of_gap hwv hx hmore'
        · cases h
          exact .of_word hwv hhash hw hgo

/-- A line that is its own reading goes on as a plain scalar. -/
theorem goesOnPlain_of_plain {d : Char} {s : Scanned} (hspace : isSpace c = false) (hbreak : isBreak c = false)
    (hd : isSpace d = false) (hd' : isBreak d = false) (hrest : p.rest = d :: u ++ '\n' :: c :: next)
    (hcolumn : 0 < p.column) (h : plain false 1 p = some s) (htext : s.text = d :: u) :
    goesOnPlain false (d :: u) = true ∧ ∀ e ∈ d :: u, isBreak e = false := by
  rcases reread_of_plainFrom hspace hbreak hd hd' hrest hcolumn (Nat.le_succ _) h with hlt | ⟨-, -, hgo, hunbroken⟩
  · simp [htext, Gap.empty, Gap.joined] at hlt
  · exact ⟨hgo, hunbroken⟩

end Backward

end ChainCompiler.Yaml
