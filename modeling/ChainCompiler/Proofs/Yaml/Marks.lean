import ChainCompiler.Proofs.Yaml.Plain
import Mathlib.Data.List.Infix

/-! What the marks of a scalar cost. A quote or a backslash in the contents of a quoted scalar is written with a mark
more than it has, and the contents of a block come after its mark. So no text with such a mark is its own reading. -/

namespace ChainCompiler.Yaml

namespace Place

theorem suffix_advance (p : Place) (k : Nat) : (p.advance k).rest <:+ p.rest := List.drop_suffix k p.rest

theorem suffix_skipWhile (p : Place) (test : Char → Bool) : (p.skipWhile test).rest <:+ p.rest := p.suffix_advance _

theorem span_append (p : Place) (test : Char → Bool) : (p.span test).1 ++ (p.span test).2.rest = p.rest :=
  (List.prefix_append_drop (List.takeWhile_prefix test)).symm

theorem suffix_readBreak (p : Place) : p.readBreak.2.rest <:+ p.rest := by
  unfold readBreak
  split
  · next hrest =>
    rw [hrest]
    exact ⟨['\r', '\n'], rfl⟩
  · next hrest =>
    split
    · rw [hrest]
      exact List.suffix_cons _ _
    · split
      · rw [hrest]
        exact List.suffix_cons _ _
      · exact List.suffix_rfl
  · exact List.suffix_rfl

theorem readBreak_of_not_isBreakHere {p : Place} (h : p.isBreakHere = false) : p.readBreak = ([], p) := by
  unfold readBreak
  split
  · next hrest =>
    have hhere : p.isBreakHere = true := isBreakHere_iff.2 ⟨_, _, hrest, rfl⟩
    rw [hhere] at h
    cases h
  · next c cs _ hrest =>
    have hbreak : isBreak c = false := by
      by_contra hbreak
      have hhere := isBreakHere_iff.2 ⟨_, _, hrest, by simpa using hbreak⟩
      rw [hhere] at h
      cases h
    split
    · next hsep =>
      simp only [Bool.or_eq_true, beq_iff_eq] at hsep
      rcases hsep with rfl | rfl <;> cases hbreak
    · simp [hbreak]
  · rfl

/-- What a line break counts as is a line break again. -/
theorem isBreak_of_mem_readBreak {p : Place} {b : Char} (h : b ∈ p.readBreak.1) : isBreak b = true := by
  cases hhere : p.isBreakHere with
  | true =>
    obtain ⟨-, -, -, -, -, -, b', hb', heq⟩ := readBreak_of_isBreakHere hhere
    rw [heq] at h
    rwa [List.mem_singleton.1 h]
  | false =>
    rw [readBreak_of_not_isBreakHere hhere] at h
    cases h

end Place

/-! A character that is neither a space nor a line break does not get into a scalar from a gap. -/

section Gaps

variable {x : Char} {n : Nat} {p r : Place} {g g' : Gap}

def Gap.Lacks (x : Char) (g : Gap) : Prop := x ∉ g.spaces ∧ (∀ b, g.first = some b → x ∉ b) ∧ x ∉ g.more

theorem Gap.lacks_empty (x : Char) : Gap.Lacks x .empty := by
  simp [Gap.Lacks, Gap.empty]

theorem Gap.Lacks.joined (h : g.Lacks x) (hspace : isSpace x = false) : x ∉ g.joined := by
  have hx : x ≠ ' ' := by
    rintro rfl
    cases hspace
  unfold Gap.joined
  split
  · exact h.1
  · next b hb =>
    split
    · split
      · simpa using hx
      · exact h.2.2
    · simp [h.2.1 b hb, h.2.2]

theorem Gap.read_lacks {indent : Int} (hspace : isSpace x = false) (hbreak : isBreak x = false) (hg : g.Lacks x)
    (h : Gap.read indent n g p = some (g', r)) : g'.Lacks x ∧ r.rest <:+ p.rest := by
  have hlacks : ∀ q : Place, x ∉ q.readBreak.1 := by
    intro q hx
    rw [Place.isBreak_of_mem_readBreak hx] at hbreak
    cases hbreak
  induction n generalizing g p with
  | zero =>
    cases h
    exact ⟨hg, List.suffix_rfl⟩
  | succ n ih =>
    cases hhere : p.isBreakHere with
    | true =>
      obtain ⟨hg', hr⟩ : g'.Lacks x ∧ r.rest <:+ p.readBreak.2.rest := by
        cases hfirst : g.first with
        | none =>
          rw [Gap.read_of_break hfirst hhere] at h
          exact ih (g := ⟨[], some p.readBreak.1, g.more⟩) ⟨by simp, by simpa using hlacks p, hg.2.2⟩ h
        | some b =>
          rw [Gap.read_of_break_after (by simp [hfirst]) hhere] at h
          exact ih (g := { g with more := g.more ++ p.readBreak.1 }) ⟨hg.1, hg.2.1, by simp [hg.2.2, hlacks p]⟩ h
      exact ⟨hg', hr.trans p.suffix_readBreak⟩
    | false =>
      obtain ⟨_ | ⟨c, cs⟩, line, column⟩ := p
      · cases h
        exact ⟨hg, List.suffix_rfl⟩
      · cases hc : isSpace c with
        | true =>
          have hx : x ≠ c := by
            rintro rfl
            rw [hspace] at hc
            cases hc
          obtain ⟨hg', hr⟩ : g'.Lacks x ∧ r.rest <:+ cs := by
            cases hfirst : g.first with
            | none =>
              rw [Gap.read_of_space hfirst hc] at h
              exact ih (g := { g with spaces := g.spaces ++ [c] }) ⟨by simp [hg.1, hx], hg.2⟩ h
            | some b =>
              rw [Gap.read_of_space_after (by simp [hfirst]) hc] at h
              split at h
              · cases h
              · exact ih hg h
          exact ⟨hg', hr.trans (List.suffix_cons c cs)⟩
        | false =>
          rw [Gap.read_of_word hc hhere] at h
          cases h
          exact ⟨hg, List.suffix_rfl⟩

end Gaps

section Quoted

variable {single : Bool} {n : Nat} {p q : Place} {cs : List Char} {s : Scanned}

/-- The character that has to be written more often than it is meant. -/
def quoteMark (single : Bool) : Char := if single then '\x27' else '\\'

def quoteCost (single : Bool) (cs : List Char) : Nat :=
  if single then 2 * cs.count '\x27' else cs.count '\\' + cs.count '"'

theorem quoteCost_append (single : Bool) (a b : List Char) :
    quoteCost single (a ++ b) = quoteCost single a + quoteCost single b := by
  cases single <;> simp [quoteCost] <;> omega

theorem escape?_pos {c : Char} {k : Nat} (h : escape? p = some (c, k)) : 1 ≤ k := by
  unfold escape? at h
  obtain ⟨c', hc', h⟩ := Option.bind_eq_some_iff.1 h
  split at h
  · cases h
    omega
  · obtain ⟨k', hk', h⟩ := Option.bind_eq_some_iff.1 h
    obtain ⟨-, -, h⟩ := Option.bind_eq_some_iff.1 h
    obtain ⟨m, hm, h⟩ := Option.bind_eq_some_iff.1 h
    obtain ⟨d, hd, h⟩ := Option.bind_eq_some_iff.1 h
    cases h
    omega

/-- A piece of the contents is paid for by the characters that it is written with. -/
def Paid (single : Bool) (p : Place) (c : List Char) (k : Nat) : Prop :=
  quoteCost single c + (p.rest.drop k).count (quoteMark single) ≤ p.rest.count (quoteMark single)

theorem paid_escape {c : Char} {k line column : Nat} {rest : List Char} (hk : 1 ≤ k) :
    Paid false ⟨'\\' :: rest, line, column⟩ [c] k := by
  have hcost : quoteCost false [c] ≤ 1 := by
    by_cases hc : c = '\\'
    · simp [quoteCost, hc]
    · by_cases hc' : c = '"' <;> simp [quoteCost, hc, hc']
  have hdrop : (('\\' :: rest).drop k).count '\\' ≤ rest.count '\\' := by
    obtain ⟨k, rfl⟩ : ∃ j, k = j + 1 := ⟨k - 1, by omega⟩
    exact (List.drop_sublist k rest).count_le _
  simp only [Paid, quoteMark] at hdrop ⊢
  simp
  omega

/-- A run stops, or goes on after a piece that is paid for. -/
def Continues (single : Bool) (n : Nat) (p : Place) (cs : List Char) (q : Place) : Prop :=
  cs = [] ∧ q = p ∨ ∃ c k more, cs = c ++ more ∧ Paid single p c k ∧ quotedRun single n (p.advance k) = some (more, q)

theorem continues_of_map {c : List Char} {k : Nat} (hc : Paid single p c k)
    (h : ((quotedRun single n (p.advance k)).map fun x => (c ++ x.1, x.2)) = some (cs, q)) :
    Continues single n p cs q := by
  obtain ⟨⟨more, q'⟩, hmore, heq⟩ := Option.map_eq_some_iff.1 h
  cases heq
  exact .inr ⟨c, k, more, rfl, hc, hmore⟩

theorem continues_of_stop (h : (some ([], p) : Option (List Char × Place)) = some (cs, q)) :
    Continues single n p cs q := by
  cases h
  exact .inl ⟨rfl, rfl⟩

/-- Between single quotes two of them stand for one. -/
theorem continues_single (h : quotedRun true (n + 1) p = some (cs, q)) : Continues true n p cs q := by
  rw [quotedRun] at h
  simp only at h
  split at h
  · exact continues_of_stop h
  · next hgap =>
    obtain ⟨_ | ⟨c, rest⟩, line, column⟩ := p
    · exact absurd rfl hgap
    · rw [if_pos trivial] at h
      split at h
      · next hquote =>
        obtain rfl : c = '\x27' := by simpa using hquote
        split at h
        · next hquote' =>
          obtain _ | ⟨c, rest⟩ := rest
          · cases hquote'
          · obtain rfl : c = '\x27' := by simpa [Place.isAt, Place.peek?] using hquote'
            exact continues_of_map (by simp [Paid, quoteCost, quoteMark]; omega) h
        · exact continues_of_stop h
      · next hquote =>
        have hc : c ≠ '\x27' := by simpa using hquote
        exact continues_of_map (by simp [Paid, quoteCost, quoteMark, hc]) h

/-- Between double quotes a backslash starts what stands for one character. -/
theorem continues_double (h : quotedRun false (n + 1) p = some (cs, q)) : Continues false n p cs q := by
  rw [quotedRun] at h
  simp only at h
  split at h
  · exact continues_of_stop h
  · next hgap =>
    obtain ⟨_ | ⟨c, rest⟩, line, column⟩ := p
    · exact absurd rfl hgap
    · rw [if_neg (by simp)] at h
      split at h
      · exact continues_of_stop h
      · next hquote =>
        split at h
        · next hescape =>
          obtain rfl : c = '\\' := by simpa using hescape
          split at h
          · exact continues_of_stop h
          · obtain ⟨⟨c, k⟩, hc, h⟩ := Option.bind_eq_some_iff.1 h
            exact continues_of_map (paid_escape (escape?_pos hc)) h
        · next hescape =>
          have hc : c ≠ '"' := by simpa using hquote
          have hc' : c ≠ '\\' := by simpa using hescape
          exact continues_of_map (by simp [Paid, quoteCost, quoteMark, hc, hc']) h

/-- Each character of the contents is paid for where it is written. -/
theorem quotedRun_cost (h : quotedRun single n p = some (cs, q)) :
    quoteCost single cs + q.rest.count (quoteMark single) ≤ p.rest.count (quoteMark single) ∧ q.rest <:+ p.rest := by
  induction n generalizing p cs with
  | zero =>
    cases h
    exact ⟨by simp [quoteCost], List.suffix_rfl⟩
  | succ n ih =>
    have hcontinues : Continues single n p cs q := by
      cases single with
      | true => exact continues_single h
      | false => exact continues_double h
    rcases hcontinues with ⟨rfl, rfl⟩ | ⟨c, k, more, rfl, hpaid, hmore⟩
    · exact ⟨by simp [quoteCost], List.suffix_rfl⟩
    · obtain ⟨hcost, hsuffix⟩ := ih hmore
      have hrest : (p.advance k).rest = p.rest.drop k := rfl
      rw [hrest] at hcost
      rw [quoteCost_append]
      unfold Paid at hpaid
      exact ⟨by omega, hsuffix.trans (p.suffix_advance k)⟩

theorem quoteCost_of_lacks {cs : List Char} (hsingle : '\x27' ∉ cs) (hescape : '\\' ∉ cs) (hdouble : '"' ∉ cs) :
    quoteCost single cs = 0 := by
  cases single <;> simp [quoteCost, List.count_eq_zero.2, hsingle, hescape, hdouble]

/-- The contents of a quoted scalar, and its end, are paid for. -/
theorem quotedFrom_cost (h : quotedFrom single n p = some s) :
    quoteCost single s.text + (if single then 1 else 0) + s.place.rest.count (quoteMark single) ≤
      p.rest.count (quoteMark single) := by
  induction n generalizing p s with
  | zero => cases h
  | succ n ih =>
    rw [quotedFrom] at h
    split at h
    · cases h
    · obtain ⟨⟨cs, q⟩, hrun, h⟩ := Option.bind_eq_some_iff.1 h
      obtain ⟨hcost, hsuffix⟩ := quotedRun_cost hrun
      simp only at h
      by_cases hquote : q.isAt (if single then '\x27' else '"') = true
      · rw [if_pos hquote] at h
        cases h
        obtain ⟨_ | ⟨c, rest⟩, line, column⟩ := q
        · cases hquote
        · cases single with
          | true =>
            obtain rfl : c = '\x27' := by simpa using hquote
            simp [quoteMark] at hcost ⊢
            omega
          | false =>
            have hle : rest.count '\\' ≤ (c :: rest).count '\\' := (List.sublist_cons_self c rest).count_le _
            simp [quoteMark] at hcost ⊢
            omega
      · rw [if_neg hquote] at h
        obtain ⟨⟨g, r⟩, hgap, h⟩ := Option.bind_eq_some_iff.1 h
        obtain ⟨more, hmore, h⟩ := Option.bind_eq_some_iff.1 h
        cases h
        -- nothing that costs comes from the gap
        have hlacks : ∀ x, isSpace x = false → isBreak x = false → x ∉ g.joined ∧ r.rest <:+ q.rest := by
          intro x hspace hbreak
          split at hgap
          · have hstart : Gap.Lacks x ⟨[], some [], []⟩ := by simp [Gap.Lacks]
            obtain ⟨hg, hr⟩ := Gap.read_lacks hspace hbreak hstart hgap
            exact ⟨hg.joined hspace, hr.trans ((Place.suffix_readBreak _).trans (q.suffix_advance 1))⟩
          · obtain ⟨hg, hr⟩ := Gap.read_lacks hspace hbreak (Gap.lacks_empty x) hgap
            exact ⟨hg.joined hspace, hr⟩
        have hjoined : quoteCost single g.joined = 0 :=
          quoteCost_of_lacks (hlacks _ rfl rfl).1 (hlacks _ rfl rfl).1 (hlacks _ rfl rfl).1
        have hcount := (hlacks '"' rfl rfl).2.sublist.count_le (quoteMark single)
        have hrest := ih hmore
        simp only [quoteCost_append, hjoined] at hrest ⊢
        omega

/-- A text with the quote that it starts with is not the contents of that scalar. What comes after the text must not hold
the character that pays. -/
theorem quoted_ne {u text after : List Char} {quote : Char} (hquote : quote = if single then '\x27' else '"')
    (hp : p.rest = quote :: u ++ after) (hu : quote :: u <:+ text) (hafter : quoteMark single ∉ after)
    (h : quoted single p = some s) : s.text ≠ text := by
  intro htext
  have hcost := quotedFrom_cost h
  have hrest : p.advance.rest = u ++ after := by rw [Place.advance, hp]; rfl
  rw [hrest, htext, List.count_append, List.count_eq_zero.2 hafter] at hcost
  have hle := hu.sublist.count_le (quoteMark single)
  cases single with
  | true =>
    subst hquote
    simp [quoteCost, quoteMark] at hcost hle
    omega
  | false =>
    subst hquote
    have hquotes := hu.sublist.count_le '"'
    simp [quoteCost, quoteMark] at hcost hle hquotes
    omega

end Quoted

section Block

variable {x : Char} {n : Nat} {p r : Place} {s : Scanned}

theorem blockHeader_suffix {chomping : Chomping} {increment : Nat} (h : blockHeader p = some (chomping, increment, r)) :
    r.rest <:+ p.rest := by
  unfold blockHeader at h
  split at h
  next chomping' increment' q heq =>
  have hq : q.rest <:+ p.rest := by
    split at heq
    · split at heq <;> cases heq <;> exact p.suffix_advance _
    · split at heq
      · split at heq <;> cases heq <;> exact p.suffix_advance _
      · cases heq
        exact List.suffix_rfl
  obtain ⟨-, -, h⟩ := Option.bind_eq_some_iff.1 h
  obtain ⟨-, -, h⟩ := Option.bind_eq_some_iff.1 h
  cases h
  refine (Place.suffix_readBreak _).trans (List.IsSuffix.trans ?_ ((q.suffix_skipWhile isSpace).trans hq))
  split
  · exact Place.suffix_skipWhile _ _
  · exact List.suffix_rfl

theorem blockBreaks_lacks {indent widest widest' : Nat} {breaks breaks' : List Char} (hbreak : isBreak x = false)
    (hbreaks : x ∉ breaks) (h : blockBreaks indent n breaks widest p = some (breaks', widest', r)) :
    x ∉ breaks' ∧ r.rest <:+ p.rest := by
  induction n generalizing breaks widest p with
  | zero =>
    cases h
    exact ⟨hbreaks, List.suffix_rfl⟩
  | succ n ih =>
    rw [blockBreaks] at h
    simp only at h
    generalize ((p.rest.take (if indent = 0 then p.rest.length else indent - p.column)).takeWhile
      (· == ' ')).length = k at h
    split at h
    · cases h
    · split at h
      · have hmore : x ∉ breaks ++ (p.advance k).readBreak.1 := by
          rw [List.mem_append, not_or]
          refine ⟨hbreaks, fun hx => ?_⟩
          rw [Place.isBreak_of_mem_readBreak hx] at hbreak
          cases hbreak
        obtain ⟨hbreaks', hr⟩ := ih hmore h
        exact ⟨hbreaks', hr.trans ((Place.suffix_readBreak _).trans (p.suffix_advance k))⟩
      · cases h
        exact ⟨hbreaks, p.suffix_advance k⟩

/-- The lines of a block hold no character more often than they do where they are written. -/
theorem blockLines_count {literal indented : Bool} {indent : Nat} {chomping : Chomping} {lead breaks text : List Char}
    (hspace : isSpace x = false) (hbreak : isBreak x = false) (hlead : x ∉ lead) (hbreaks : x ∉ breaks)
    (h : blockLines literal indent chomping n lead breaks indented p = some (text, r)) :
    text.count x + r.rest.count x ≤ p.rest.count x := by
  have hx : x ≠ ' ' := by
    rintro rfl
    cases hspace
  induction n generalizing lead breaks indented p text with
  | zero => cases h
  | succ n ih =>
    rw [blockLines] at h
    split at h
    · simp only at h
      obtain ⟨⟨breaks', widest, q⟩, hq, h⟩ := Option.bind_eq_some_iff.1 h
      obtain ⟨⟨more, t⟩, hmore, h⟩ := Option.bind_eq_some_iff.1 h
      cases h
      have hspan : (p.span fun c => !isBreak c).1 ++ (p.span fun c => !isBreak c).2.rest = p.rest := p.span_append _
      have hlead' : x ∉ (p.span fun c => !isBreak c).2.readBreak.1 := by
        intro hx
        rw [Place.isBreak_of_mem_readBreak hx] at hbreak
        cases hbreak
      obtain ⟨hbreaks', hq⟩ := blockBreaks_lacks hbreak List.not_mem_nil hq
      have hcount := ih hlead' hbreaks' hmore
      have hle := (hq.trans (Place.suffix_readBreak _)).sublist.count_le x
      have hglue : x ∉ if (!literal && decide (lead = ['\n']) && !indented && !p.isSpaceHere) = true then
          if breaks.isEmpty = true then [' '] else [] else lead := by
        split
        · split
          · simpa using hx
          · simp
        · exact hlead
      have hsum := congrArg (List.count x) hspan
      simp only [List.count_append, List.count_eq_zero.2 hglue, List.count_eq_zero.2 hbreaks] at hcount hle hsum ⊢
      omega
    · cases h
      have hend : x ∉ (if chomping = .strip then [] else lead) ++ if chomping = .keep then breaks else [] := by
        rw [List.mem_append, not_or]
        exact ⟨by split <;> simp [hlead], by split <;> simp [hbreaks]⟩
      rw [List.count_eq_zero.2 hend]
      omega

/-- A text with the mark that a block starts with is not the contents of that block. -/
theorem block_ne {u text after : List Char} {literal : Bool} {parent : Int} (hspace : isSpace x = false)
    (hbreak : isBreak x = false) (hp : p.rest = x :: u ++ after) (hu : x :: u <:+ text) (hafter : x ∉ after)
    (h : block literal parent p = some s) : s.text ≠ text := by
  intro htext
  unfold block at h
  obtain ⟨⟨chomping, increment, q⟩, hheader, h⟩ := Option.bind_eq_some_iff.1 h
  obtain ⟨⟨breaks, widest, r⟩, hbreaks, h⟩ := Option.bind_eq_some_iff.1 h
  obtain ⟨⟨lines, t⟩, hlines, h⟩ := Option.bind_eq_some_iff.1 h
  cases h
  obtain ⟨hlacks, hr⟩ := blockBreaks_lacks hbreak List.not_mem_nil hbreaks
  have hcount := blockLines_count hspace hbreak List.not_mem_nil hlacks hlines
  have hle := (hr.trans (blockHeader_suffix hheader)).sublist.count_le x
  have hrest : p.advance.rest = u ++ after := by rw [Place.advance, hp]; rfl
  have htotal := hu.sublist.count_le x
  simp only at htext hcount hle
  rw [hrest, List.count_append, List.count_eq_zero.2 hafter] at hle
  rw [htext] at hcount
  rw [List.count_cons_self] at htotal
  omega

end Block

end ChainCompiler.Yaml
