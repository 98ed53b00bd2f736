import ChainCompiler.Lowering.Template
import ChainCompiler.Proofs.Deciding
import Mathlib.Data.Option.Basic

/-! The variables of a template. Normalizing a template changes its variables in two pairs of braces and nothing else,
and neither makes nor breaks any variable where it does so: the variables listed for the result are those of the
template, each once, in the order in which they first occur. -/

namespace ChainCompiler.Template

open Text

theorem isWordChar_of_isBlank {c : Char} (h : isBlank c = true) : isWordChar c = false := by
  have hranges : ∀ r ∈ blankRanges, ∀ k < r.2 + 1 - r.1, isWordChar (Char.ofNat (r.1 + k)) = false := by decide
  obtain ⟨r, hr, hbounds⟩ := List.any_eq_true.1 h
  simp only [Bool.and_eq_true, decide_eq_true_eq] at hbounds
  have hc := hranges r hr (c.toNat - r.1) (by omega)
  rwa [Nat.add_sub_cancel' hbounds.1, Char.ofNat_toNat] at hc

def single (name : List Char) : List Char := '\x7b' :: (name ++ ['\x7d'])

/-- A variable in two pairs of braces: blanks may stand around its name. -/
structure Doubled where
  before : List Char
  name : List Char
  behind : List Char
  blank_before : ∀ c ∈ before, isBlank c = true
  isIdentifier_name : isIdentifier name = true
  blank_behind : ∀ c ∈ behind, isBlank c = true

namespace Doubled

def body (d : Doubled) : List Char := d.before ++ (d.name ++ (d.behind ++ ['\x7d', '\x7d']))

def source (d : Doubled) : List Char := '\x7b' :: '\x7b' :: d.body

theorem brace_notMem_body (d : Doubled) : '\x7b' ∉ d.body := by
  have hblank : ∀ {cs : List Char}, (∀ c ∈ cs, isBlank c = true) → '\x7b' ∉ cs := by
    intro cs hcs hmem
    exact absurd (hcs _ hmem) (by decide)
  have hname : '\x7b' ∉ d.name := fun hmem => absurd (isWordChar_of_isIdentifier d.isIdentifier_name _ hmem) (by decide)
  simp [body, hname, hblank d.blank_before, hblank d.blank_behind]

end Doubled

theorem isWordStart_head {name : List Char} (h : isIdentifier name = true) :
    ∃ c cs, name = c :: cs ∧ isWordStart c = true := by
  cases name with
  | nil => cases h
  | cons c cs => exact ⟨c, cs, rfl, (Bool.and_eq_true_iff.1 h).1⟩

theorem stops_isBlank_of_isIdentifier {name : List Char} (h : isIdentifier name = true) (rest : List Char) :
    Stops isBlank (name ++ rest) := by
  obtain ⟨c, cs, rfl, hc⟩ := isWordStart_head h
  intro d hd
  cases hd
  rw [Bool.eq_false_iff]
  intro hblank
  have hword := isWordChar_of_start hc
  rw [isWordChar_of_isBlank hblank] at hword
  cases hword

theorem stops_isWordChar_of_isBlank {blanks rest : List Char} (h : ∀ c ∈ blanks, isBlank c = true)
    (hrest : Stops isWordChar rest) : Stops isWordChar (blanks ++ rest) := by
  cases blanks with
  | nil => exact hrest
  | cons c cs =>
    intro d hd
    cases hd
    exact isWordChar_of_isBlank (h c (by simp))

theorem stops_brace {p : Char → Bool} (h : p '\x7d' = false) (rest : List Char) : Stops p ('\x7d' :: rest) := by
  intro c hc
  cases hc
  exact h

theorem doubleBraced?_source (d : Doubled) (rest : List Char) :
    doubleBraced? (d.source ++ rest) = some (d.name, d.source.length) := by
  obtain ⟨before, name, behind, hbefore, hname, hbehind⟩ := d
  have hblank₁ : (before ++ (name ++ (behind ++ '\x7d' :: '\x7d' :: rest))).takeWhile isBlank = before :=
    takeWhile_append_of_stops hbefore (stops_isBlank_of_isIdentifier hname _)
  have hlength : identifierLength? (name ++ (behind ++ '\x7d' :: '\x7d' :: rest)) = some name.length :=
    identifierLength?_append hname (stops_isWordChar_of_isBlank hbehind (stops_brace (by decide) _))
  have hblank₂ : (behind ++ '\x7d' :: '\x7d' :: rest).takeWhile isBlank = behind :=
    takeWhile_append_of_stops hbehind (stops_brace (by decide) _)
  simp [doubleBraced?, Doubled.source, Doubled.body, hblank₁, hlength, hblank₂, Nat.add_comm 2, Nat.add_assoc]

theorem exists_doubled_of_doubleBraced? {cs name : List Char} {n : Nat} (h : doubleBraced? cs = some (name, n)) :
    ∃ d : Doubled, ∃ rest, cs = d.source ++ rest ∧ d.name = name ∧ d.source.length = n := by
  simp only [doubleBraced?, Option.bind_eq_bind, Option.bind_eq_some_iff, Option.guard_eq_some'] at h
  obtain ⟨-, hopen, m, hm, -, hclose, h⟩ := h
  obtain ⟨inner, rfl⟩ := Rule.eq_append_of_isPrefixOf hopen
  obtain ⟨before, inner, rfl, htake, hbefore, -⟩ := exists_span isBlank inner
  have hinner : ('\x7b' :: '\x7b' :: (before ++ inner)).drop (2 + before.length) = inner := by
    simp [Nat.add_comm 2]
  simp only [List.cons_append, List.nil_append, List.drop_succ_cons, List.drop_zero, htake, hinner] at hm hclose h
  obtain ⟨name', inner, rfl, rfl, hname, -⟩ := Rule.eq_append_of_identifierLength? hm
  obtain ⟨behind, inner, rfl, htake', hbehind, -⟩ := exists_span isBlank inner
  simp only [List.drop_left, htake', ← List.drop_drop] at hclose h
  obtain ⟨rest, rfl⟩ := Rule.eq_append_of_isPrefixOf hclose
  rw [List.take_left] at h
  cases h
  refine ⟨⟨before, name, behind, hbefore, hname, hbehind⟩, rest, ?_, rfl, ?_⟩
  · simp [Doubled.source, Doubled.body]
  · simp [Doubled.source, Doubled.body]
    omega

theorem braced?_eq_some_iff {cs name : List Char} :
    braced? cs = some name ↔ isIdentifier name = true ∧ ∃ rest, cs = single name ++ rest := by
  constructor
  · intro h
    cases cs with
    | nil => cases h
    | cons c cs =>
      simp only [braced?, Option.bind_eq_bind, Option.bind_eq_some_iff, Option.guard_eq_some', beq_iff_eq] at h
      obtain ⟨-, rfl, n, hn, -, hclose, h⟩ := h
      obtain ⟨name', rest, rfl, rfl, hname, -⟩ := Rule.eq_append_of_identifierLength? hn
      rw [List.drop_left] at hclose
      obtain ⟨rest, rfl⟩ := Rule.eq_append_of_isPrefixOf hclose
      rw [List.take_left] at h
      cases h
      exact ⟨hname, rest, by simp [single]⟩
  · rintro ⟨hname, rest, rfl⟩
    have hlength : identifierLength? (name ++ '\x7d' :: rest) = some name.length :=
      identifierLength?_append hname (stops_brace (by decide) rest)
    simp [braced?, single, hlength]

/-- No variable in two pairs of braces stands at the front of the text. -/
def NoDoubled (cs : List Char) : Prop := ∀ (d : Doubled) (rest : List Char), cs ≠ d.source ++ rest

theorem normalizeFrom_eq_drop (skip : Nat) (cs : List Char) :
    normalizeFrom skip cs = normalizeFrom 0 (cs.drop skip) := by
  induction cs generalizing skip with
  | nil => simp [normalizeFrom]
  | cons c cs ih =>
    cases skip with
    | zero => rfl
    | succ skip => rw [normalizeFrom, ih, List.drop_succ_cons]

theorem normalizeFrom_source (d : Doubled) (rest : List Char) :
    normalizeFrom 0 (d.source ++ rest) = single d.name ++ normalizeFrom 0 rest := by
  have hdoubled := doubleBraced?_source d rest
  rw [Doubled.source, List.cons_append, List.cons_append] at hdoubled ⊢
  rw [normalizeFrom, hdoubled]
  dsimp only
  rw [normalizeFrom_eq_drop]
  simp [single]

theorem normalizeFrom_cons {c : Char} {cs : List Char} (h : NoDoubled (c :: cs)) :
    normalizeFrom 0 (c :: cs) = c :: normalizeFrom 0 cs := by
  rw [normalizeFrom]
  cases hdoubled : doubleBraced? (c :: cs) with
  | none => rfl
  | some x =>
    obtain ⟨d, rest, heq, -⟩ := exists_doubled_of_doubleBraced? hdoubled
    exact absurd heq (h d rest)

/-- A text is empty, starts with a variable in two pairs of braces, or has a first character where none starts. -/
theorem front_cases (cs : List Char) :
    cs = [] ∨ (∃ d : Doubled, ∃ rest, cs = d.source ++ rest) ∨ ∃ c cs', cs = c :: cs' ∧ NoDoubled cs := by
  cases cs with
  | nil => exact .inl rfl
  | cons c cs =>
    by_cases h : ∃ d : Doubled, ∃ rest, c :: cs = d.source ++ rest
    · exact .inr (.inl h)
    · exact .inr (.inr ⟨c, cs, rfl, fun d rest heq => h ⟨d, rest, heq⟩⟩)

/-- Texts from the right: what holds of the empty text, with one more character where no variable in two pairs of braces
starts and with one more such variable, holds of all texts. -/
theorem front_induction {P : List Char → Prop} (nil : P [])
    (doubled : ∀ (d : Doubled) (rest : List Char), P rest → P (d.source ++ rest))
    (char : ∀ (c : Char) (cs : List Char), NoDoubled (c :: cs) → P cs → P (c :: cs)) (cs : List Char) : P cs := by
  induction hn : cs.length using Nat.strong_induction_on generalizing cs with
  | _ n ih =>
    subst hn
    rcases front_cases cs with rfl | ⟨d, rest, rfl⟩ | ⟨c, cs', rfl, h⟩
    · exact nil
    · exact doubled d rest (ih _ (by simp [Doubled.source]; omega) rest rfl)
    · exact char c cs' h (ih _ (by simp) cs' rfl)

/-- A variable at the front of a text, in one pair of braces or in two. -/
inductive Mention (name : List Char) : List Char → Prop
  | plain {rest} : isIdentifier name = true → Mention name (single name ++ rest)
  | doubled {d : Doubled} {rest} : d.name = name → Mention name (d.source ++ rest)

theorem Mention.head {name cs : List Char} (h : Mention name cs) : ∃ rest, cs = '\x7b' :: rest := by
  cases h with
  | plain _ => exact ⟨_, rfl⟩
  | doubled _ => exact ⟨_, rfl⟩

theorem mention_iff_of_noDoubled {name cs : List Char} (h : NoDoubled cs) :
    Mention name cs ↔ braced? cs = some name := by
  rw [braced?_eq_some_iff]
  constructor
  · intro hmention
    cases hmention with
    | plain hname => exact ⟨hname, _, rfl⟩
    | @doubled d rest _ => exact absurd rfl (h d rest)
  · rintro ⟨hname, rest, rfl⟩
    exact .plain hname

theorem name_eq_of_sources {d d' : Doubled} {rest rest' : List Char} (h : d.source ++ rest = d'.source ++ rest') :
    d.name = d'.name := by
  have hread := doubleBraced?_source d rest
  rw [h, doubleBraced?_source, Option.some.injEq, Prod.mk.injEq] at hread
  exact hread.1.symm

/-- A name that a brace closes after the opening braces of a variable is the name of the variable. -/
theorem eq_name_of_body {d : Doubled} {rest name rest' : List Char} (hname : isIdentifier name = true)
    (h : d.body ++ rest = name ++ '\x7d' :: rest') : name = d.name := by
  have hlength : identifierLength? (d.body ++ rest) = some name.length := by
    rw [h]
    exact identifierLength?_append hname (stops_brace (by decide) rest')
  obtain ⟨before, name', behind, hbefore, hname', hbehind⟩ := d
  cases before with
  | nil =>
    have hstops : Stops isWordChar (behind ++ '\x7d' :: '\x7d' :: rest) :=
      stops_isWordChar_of_isBlank hbehind (stops_brace (by decide) _)
    have hbody : Doubled.body ⟨[], name', behind, hbefore, hname', hbehind⟩ ++ rest =
        name' ++ (behind ++ '\x7d' :: '\x7d' :: rest) := by simp [Doubled.body]
    rw [hbody] at h hlength
    rw [identifierLength?_append hname' hstops, Option.some.injEq] at hlength
    exact (List.append_inj_left h hlength).symm
  | cons c cs =>
    -- a blank starts no name
    have hc : ¬isWordStart c = true := by
      intro hstart
      have hword := isWordChar_of_start hstart
      rw [isWordChar_of_isBlank (hbefore c (by simp))] at hword
      cases hword
    simp [Doubled.body, identifierLength?, hc] at hlength

/-- After its opening braces a variable has no others. -/
theorem length_body_le {d : Doubled} {rest cs : List Char} {i : Nat} (h : (d.body ++ rest).drop i = '\x7b' :: cs) :
    d.body.length ≤ i := by
  rw [← Nat.not_lt]
  intro hi
  apply d.brace_notMem_body
  rw [List.drop_append_of_le_length (Nat.le_of_lt hi), List.drop_eq_getElem_cons hi, List.cons_append] at h
  rw [← (List.cons.inj h).1]
  exact List.getElem_mem hi

/-- Variables in two pairs of braces do not overlap. -/
theorem noDoubled_inside {d : Doubled} {rest : List Char} {i : Nat} (hpos : 0 < i) (hi : i < d.source.length) :
    NoDoubled ((d.source ++ rest).drop i) := by
  intro d' rest' h
  have hlen : d.source.length = d.body.length + 2 := rfl
  match i, hpos with
  | 1, _ =>
    have hbody : (d.body ++ rest).drop 0 = '\x7b' :: (d'.body ++ rest') := by simpa [Doubled.source] using h
    have hle := length_body_le hbody
    simp [Doubled.body] at hle
  | i + 2, _ =>
    have hle : d.body.length ≤ i := length_body_le h
    omega

/-- Inside a variable in two pairs of braces there is no other variable. -/
theorem eq_name_of_mention {d : Doubled} {rest name : List Char} {i : Nat} (hi : i < d.source.length)
    (h : Mention name ((d.source ++ rest).drop i)) : name = d.name := by
  match i with
  | 0 =>
    generalize hcs : (d.source ++ rest).drop 0 = cs at h
    cases h with
    | plain hname =>
      obtain ⟨c, cs, rfl, hc⟩ := isWordStart_head hname
      simp only [Doubled.source, single, List.cons_append, List.drop_zero, List.cons.injEq, true_and] at hcs
      rw [← hcs.1] at hc
      cases hc
    | doubled hname => rw [← hname, name_eq_of_sources hcs]
  | 1 =>
    obtain ⟨hname, rest', hcs⟩ :=
      braced?_eq_some_iff.1 ((mention_iff_of_noDoubled (noDoubled_inside Nat.one_pos hi)).1 h)
    apply eq_name_of_body hname
    simpa [Doubled.source, single] using hcs
  | i + 2 =>
    obtain ⟨cs, hcs⟩ := h.head
    have hle : d.body.length ≤ i := length_body_le hcs
    have hlen : d.source.length = d.body.length + 2 := rfl
    omega

/-- The variables of a text with their places, from left to right. A variable in two pairs of braces also stands in one
pair of them; it is met where the first brace is. -/
structure Traced (cs : List Char) (places : List (Nat × List Char)) : Prop where
  increasing : places.Pairwise fun x y => x.1 < y.1
  sound : ∀ x ∈ places, Mention x.2 (cs.drop x.1)
  complete : ∀ i name, Mention name (cs.drop i) → ∃ j ≤ i, (j, name) ∈ places

namespace Traced

theorem nil : Traced [] [] := by
  refine ⟨.nil, by simp, fun i name h => ?_⟩
  obtain ⟨rest, hrest⟩ := h.head
  simp at hrest

/-- A longer text, at whose front there is at most the variable `first`. -/
theorem append {front rest : List Char} {places : List (Nat × List Char)} (h : Traced rest places)
    (first : Option (List Char)) (hfront : 0 < front.length) (hsound : ∀ name ∈ first, Mention name (front ++ rest))
    (hcomplete : ∀ i < front.length, ∀ name, Mention name ((front ++ rest).drop i) → first = some name) :
    Traced (front ++ rest) (first.toList.map (0, ·) ++ places.map fun x => (x.1 + front.length, x.2)) := by
  have hfirst : ∀ x ∈ first.toList.map (0, ·), ∃ name, first = some name ∧ x = (0, name) := by
    intro x hx
    obtain ⟨name, hname, rfl⟩ := List.mem_map.1 hx
    exact ⟨name, Option.mem_toList.1 hname, rfl⟩
  have hdrop : ∀ i, (front ++ rest).drop (i + front.length) = rest.drop i := by
    intro i
    rw [Nat.add_comm, ← List.drop_drop, List.drop_left]
  constructor
  · rw [List.pairwise_append]
    refine ⟨?_, ?_, ?_⟩
    · cases first <;> simp
    · rw [List.pairwise_map]
      exact h.increasing.imp fun hlt => Nat.add_lt_add_right hlt _
    · intro x hx y hy
      obtain ⟨name, -, rfl⟩ := hfirst x hx
      obtain ⟨z, -, rfl⟩ := List.mem_map.1 hy
      exact Nat.lt_of_lt_of_le hfront (Nat.le_add_left _ _)
  · intro x hx
    rcases List.mem_append.1 hx with hx | hx
    · obtain ⟨name, hname, rfl⟩ := hfirst x hx
      exact hsound name hname
    · obtain ⟨y, hy, rfl⟩ := List.mem_map.1 hx
      rw [hdrop]
      exact h.sound y hy
  · intro i name hmention
    rcases Nat.lt_or_ge i front.length with hi | hi
    · refine ⟨0, Nat.zero_le i, List.mem_append_left _ ?_⟩
      rw [hcomplete i hi name hmention]
      simp
    · obtain ⟨k, rfl⟩ := Nat.exists_eq_add_of_le' hi
      rw [hdrop] at hmention
      obtain ⟨j, hj, hmem⟩ := h.complete k name hmention
      exact ⟨j + front.length, by omega, List.mem_append_right _ (List.mem_map.2 ⟨(j, name), hmem, rfl⟩)⟩

end Traced

theorem occurrences_append {cs rest : List Char} (h : '\x7b' ∉ cs) : occurrences (cs ++ rest) = occurrences rest := by
  induction cs with
  | nil => rfl
  | cons c cs ih =>
    rw [List.mem_cons, not_or] at h
    have hnone : braced? (c :: (cs ++ rest)) = none := by simp [braced?, Ne.symm h.1]
    rw [List.cons_append, occurrences, hnone]
    exact ih h.2

theorem occurrences_cons (c : Char) (cs : List Char) :
    occurrences (c :: cs) = (braced? (c :: cs)).toList ++ occurrences cs := by
  rw [occurrences]
  cases braced? (c :: cs) <;> rfl

theorem brace_notMem_of_isIdentifier {name : List Char} (h : isIdentifier name = true) : '\x7b' ∉ name :=
  fun hmem => absurd (isWordChar_of_isIdentifier h _ hmem) (by decide)

theorem occurrences_single {name : List Char} (h : isIdentifier name = true) (rest : List Char) :
    occurrences (single name ++ rest) = name :: occurrences rest := by
  have hbraced : braced? (single name ++ rest) = some name := braced?_eq_some_iff.2 ⟨h, rest, rfl⟩
  have hskip : '\x7b' ∉ name ++ ['\x7d'] := by simp [brace_notMem_of_isIdentifier h]
  rw [single, List.cons_append] at hbraced ⊢
  rw [occurrences_cons, hbraced, occurrences_append hskip]
  rfl

/-- Normalizing keeps what comes before the first opening brace. -/
theorem normalizeFrom_starts_iff {w : List Char} (h : '\x7b' ∉ w) (cs : List Char) :
    w <+: normalizeFrom 0 cs ↔ w <+: cs := by
  induction w generalizing cs with
  | nil => simp
  | cons c w ih =>
    rw [List.mem_cons, not_or] at h
    rcases front_cases cs with rfl | ⟨d, rest, rfl⟩ | ⟨c', cs, rfl, hfront⟩
    · rw [normalizeFrom]
    · rw [normalizeFrom_source]
      simp [single, Doubled.source, List.cons_prefix_cons, Ne.symm h.1]
    · rw [normalizeFrom_cons hfront, List.cons_prefix_cons, List.cons_prefix_cons, ih h.2]

/-- Normalizing what comes behind a character does not change whether a variable starts with it. -/
theorem braced?_normalizeFrom (c : Char) (cs : List Char) : braced? (c :: normalizeFrom 0 cs) = braced? (c :: cs) := by
  have hbraced : ∀ name ds, braced? (c :: ds) = some name ↔
      isIdentifier name = true ∧ '\x7b' = c ∧ name ++ ['\x7d'] <+: ds := by
    intro name ds
    rw [braced?_eq_some_iff, ← List.cons_prefix_cons]
    simp only [List.IsPrefix, single, eq_comm]
  ext name
  simp only [hbraced]
  refine and_congr_right fun hname => and_congr_right fun _ => normalizeFrom_starts_iff ?_ cs
  simp [brace_notMem_of_isIdentifier hname]

/-- The variables of the normalized text are met in the text itself, in the same order. -/
theorem exists_traced (cs : List Char) :
    ∃ places, Traced cs places ∧ places.map Prod.snd = occurrences (normalizeFrom 0 cs) := by
  induction cs using front_induction with
  | nil => exact ⟨[], .nil, rfl⟩
  | doubled d rest ih =>
    obtain ⟨places, htraced, hnames⟩ := ih
    have hfirst : ∀ name ∈ some d.name, Mention name (d.source ++ rest) := by
      intro name hname
      cases hname
      exact .doubled rfl
    have hmore : Traced (d.source ++ rest) _ := htraced.append (some d.name) (Nat.succ_pos _) hfirst
      fun i hi name hmention => by rw [eq_name_of_mention hi hmention]
    refine ⟨_, hmore, ?_⟩
    rw [normalizeFrom_source, occurrences_single d.isIdentifier_name, ← hnames]
    simp [Function.comp_def]
  | char c cs hfront ih =>
    obtain ⟨places, htraced, hnames⟩ := ih
    have hmore : Traced ([c] ++ cs) _ := htraced.append (braced? (c :: cs)) Nat.one_pos
      (fun name hname => (mention_iff_of_noDoubled hfront).2 hname) fun i hi name hmention => by
        obtain rfl : i = 0 := by simpa using hi
        exact (mention_iff_of_noDoubled hfront).1 hmention
    refine ⟨_, hmore, ?_⟩
    rw [normalizeFrom_cons hfront, occurrences_cons, braced?_normalizeFrom, ← hnames]
    simp [Function.comp_def]

/-- `x` occurs before all occurrences of `y`. -/
def Earlier {α : Type} (xs : List α) (x y : α) : Prop := ∃ front back, xs = front ++ x :: back ∧ y ∉ front ∧ y ≠ x

section FirstOccurrences

variable {α : Type} [BEq α]

theorem firstOccurrences_concat (xs : List α) (x : α) :
    firstOccurrences (xs ++ [x]) =
      if (firstOccurrences xs).contains x then firstOccurrences xs else firstOccurrences xs ++ [x] := by
  rw [firstOccurrences, List.foldl_append]
  rfl

variable [LawfulBEq α]

theorem mem_firstOccurrences {xs : List α} {x : α} : x ∈ firstOccurrences xs ↔ x ∈ xs := by
  induction xs using List.reverseRecOn with
  | nil => rfl
  | append_singleton xs y ih =>
    rw [firstOccurrences_concat]
    split
    · next hy =>
      rw [ih, List.mem_append, List.mem_singleton, or_iff_left_of_imp]
      rintro rfl
      exact ih.1 (List.contains_iff_mem.1 hy)
    · rw [List.mem_append, List.mem_append, ih]

theorem pairwise_firstOccurrences (xs : List α) : (firstOccurrences xs).Pairwise (Earlier xs) := by
  induction xs using List.reverseRecOn with
  | nil => exact .nil
  | append_singleton xs y ih =>
    have hlonger : ∀ {a b}, Earlier xs a b → Earlier (xs ++ [y]) a b := by
      rintro a b ⟨front, back, rfl, hb, hne⟩
      exact ⟨front, back ++ [y], by simp, hb, hne⟩
    rw [firstOccurrences_concat]
    split
    · exact ih.imp hlonger
    · next hy =>
      rw [List.contains_iff_mem, mem_firstOccurrences] at hy
      refine List.pairwise_append.2 ⟨ih.imp hlonger, List.pairwise_singleton _ _, fun a ha b hb => ?_⟩
      rw [List.mem_singleton.1 hb]
      obtain ⟨front, back, rfl⟩ := List.append_of_mem (mem_firstOccurrences.1 ha)
      refine ⟨front, back ++ [y], by simp, fun hmem => hy (by simp [hmem]), ?_⟩
      rintro rfl
      exact hy (by simp)

theorem nodup_firstOccurrences (xs : List α) : (firstOccurrences xs).Nodup := by
  refine (pairwise_firstOccurrences xs).imp fun h => ?_
  obtain ⟨-, -, -, -, hne⟩ := h
  exact hne.symm

end FirstOccurrences

theorem exists_single_of_mem {cs name : List Char} (h : name ∈ occurrences cs) : single name <:+: cs := by
  induction cs with
  | nil => cases h
  | cons c cs ih =>
    rw [occurrences_cons, List.mem_append, Option.mem_toList] at h
    rcases h with h | h
    · obtain ⟨-, rest, hrest⟩ := braced?_eq_some_iff.1 h
      rw [hrest]
      exact (List.prefix_append _ _).isInfix
    · exact List.infix_cons (ih h)

/-- A piece of a template: a character, or a variable in two pairs of braces. -/
inductive Piece where
  | char (c : Char)
  | doubled (d : Doubled)

def Piece.source : Piece → List Char
  | .char c => [c]
  | .doubled d => d.source

def Piece.normal : Piece → List Char
  | .char c => [c]
  | .doubled d => single d.name

/-- A variable in two pairs of braces is told by its text. -/
theorem Doubled.eq_of_sources {d d' : Doubled} {rest rest' : List Char} (h : d.source ++ rest = d'.source ++ rest') :
    d = d' := by
  have hname := name_eq_of_sources h
  obtain ⟨before, name, behind, hbefore, hident, hbehind⟩ := d
  obtain ⟨before', name', behind', hbefore', hident', hbehind'⟩ := d'
  obtain rfl : name = name' := hname
  simp only [source, body, List.cons_append, List.append_assoc, List.cons.injEq, true_and] at h
  have hfront := congrArg (List.takeWhile isBlank) h
  rw [takeWhile_append_of_stops hbefore (stops_isBlank_of_isIdentifier hident _),
    takeWhile_append_of_stops hbefore' (stops_isBlank_of_isIdentifier hident' _)] at hfront
  subst hfront
  have hback := congrArg (List.takeWhile isBlank) (List.append_cancel_left (List.append_cancel_left h))
  rw [takeWhile_append_of_stops hbehind (stops_brace (by decide) _),
    takeWhile_append_of_stops hbehind' (stops_brace (by decide) _)] at hback
  subst hback
  rfl

/-- Normalizing goes through a text piece by piece. The variables in two pairs of braces that the text has anywhere are
exactly those among the pieces. -/
theorem exists_pieces (cs : List Char) :
    ∃ pieces : List Piece, pieces.flatMap Piece.source = cs ∧ pieces.flatMap Piece.normal = normalizeFrom 0 cs ∧
      ∀ a d b, cs = a ++ Doubled.source d ++ b →
        ∃ ps qs, pieces = ps ++ .doubled d :: qs ∧ ps.flatMap Piece.source = a := by
  induction cs using front_induction with
  | nil => exact ⟨[], rfl, rfl, fun a d b h => by simp [Doubled.source] at h⟩
  | doubled d rest ih =>
    obtain ⟨pieces, hsource, hnormal, hall⟩ := ih
    refine ⟨.doubled d :: pieces, ?_, ?_, fun a d' b h => ?_⟩
    · rw [List.flatMap_cons, hsource, Piece.source]
    · rw [List.flatMap_cons, hnormal, normalizeFrom_source, Piece.normal]
    · rw [List.append_assoc] at h
      rcases Nat.lt_or_ge a.length d.source.length with ha | ha
      · -- the occurrence starts inside the first piece, so it is that piece
        rcases Nat.eq_zero_or_pos a.length with hzero | hpos
        · obtain rfl := List.length_eq_zero_iff.1 hzero
          obtain rfl := Doubled.eq_of_sources h
          exact ⟨[], pieces, rfl, rfl⟩
        · have hinside : NoDoubled ((d.source ++ rest).drop a.length) := noDoubled_inside hpos ha
          exact absurd (by rw [h, List.drop_left]) (hinside d' b)
      · obtain ⟨a, rfl⟩ : d.source <+: a :=
          List.prefix_of_prefix_length_le (List.prefix_append _ rest) ⟨_, h.symm⟩ ha
        rw [List.append_assoc, List.append_cancel_left_eq] at h
        obtain ⟨ps, qs, rfl, rfl⟩ := hall a d' b (by rw [h, List.append_assoc])
        exact ⟨.doubled d :: ps, qs, rfl, rfl⟩
  | char c cs hfront ih =>
    obtain ⟨pieces, hsource, hnormal, hall⟩ := ih
    refine ⟨.char c :: pieces, ?_, ?_, fun a d b h => ?_⟩
    · rw [List.flatMap_cons, hsource, Piece.source, List.singleton_append]
    · rw [List.flatMap_cons, hnormal, normalizeFrom_cons hfront, Piece.normal, List.singleton_append]
    · cases a with
      | nil => exact absurd h (hfront d b)
      | cons c' a =>
        rw [List.cons_append, List.cons_append, List.cons.injEq] at h
        obtain ⟨rfl, h⟩ := h
        obtain ⟨ps, qs, rfl, rfl⟩ := hall a d b h
        exact ⟨.char c :: ps, qs, rfl, rfl⟩

namespace Traced

variable {cs : List Char} {places : List (Nat × List Char)}

theorem mem_iff (h : Traced cs places) {name : List Char} :
    name ∈ places.map Prod.snd ↔ ∃ i, Mention name (cs.drop i) := by
  constructor
  · intro hmem
    obtain ⟨x, hx, rfl⟩ := List.mem_map.1 hmem
    exact ⟨x.1, h.sound x hx⟩
  · rintro ⟨i, hmention⟩
    obtain ⟨j, -, hmem⟩ := h.complete i name hmention
    exact List.mem_map.2 ⟨(j, name), hmem, rfl⟩

theorem lt_of_earlier (h : Traced cs places) {v w : List Char} (hvw : Earlier (places.map Prod.snd) v w) :
    ∃ i, Mention v (cs.drop i) ∧ ∀ j, Mention w (cs.drop j) → i < j := by
  obtain ⟨front, back, heq, hfront, hne⟩ := hvw
  obtain ⟨xs, ys, rfl, rfl, hys⟩ := List.map_eq_append_iff.1 heq
  obtain ⟨x, ys, rfl, rfl, rfl⟩ := List.map_eq_cons_iff.1 hys
  refine ⟨x.1, h.sound x (by simp), fun j hmention => ?_⟩
  obtain ⟨k, hk, hmem⟩ := h.complete j w hmention
  -- the place of `w` comes after that of `v`
  have hback : (k, w) ∈ ys := by
    rcases List.mem_append.1 hmem with hmem | hmem
    · exact absurd (List.mem_map.2 ⟨(k, w), hmem, rfl⟩) hfront
    · rcases List.mem_cons.1 hmem with rfl | hmem
      · exact absurd rfl hne
      · exact hmem
  have hlt : x.1 < k := (List.pairwise_cons.1 (List.pairwise_append.1 h.increasing).2.1).1 (k, w) hback
  omega

end Traced

/-- The variables of a normalized template. They are listed without repetition; they are all that the template has in
one or in two pairs of braces, in the order in which they first occur there; each stands in one pair of braces in the
normalized template, which differs from the template only in the variables in two pairs of braces. -/
theorem names_normalize (t : String) :
    (names (normalize t)).Nodup ∧
      (∀ v : String, v ∈ names (normalize t) ↔ ∃ i, Mention v.toList (t.toList.drop i)) ∧
      (names (normalize t)).Pairwise (fun v w => ∃ i, Mention v.toList (t.toList.drop i) ∧
        ∀ j, Mention w.toList (t.toList.drop j) → i < j) ∧
      (∀ v ∈ names (normalize t), single v.toList <:+: (normalize t).toList) ∧
      ∃ pieces : List Piece,
        pieces.flatMap Piece.source = t.toList ∧ pieces.flatMap Piece.normal = (normalize t).toList ∧
        ∀ a d b, t.toList = a ++ Doubled.source d ++ b →
          ∃ ps qs, pieces = ps ++ .doubled d :: qs ∧ ps.flatMap Piece.source = a := by
  obtain ⟨places, htraced, hplaces⟩ := exists_traced t.toList
  have htext : (normalize t).toList = normalizeFrom 0 t.toList := String.toList_ofList
  have hnames : names (normalize t) = (firstOccurrences (places.map Prod.snd)).map String.ofList := by
    rw [names, htext, hplaces]
  have hmem : ∀ v : String, v ∈ names (normalize t) ↔ v.toList ∈ places.map Prod.snd := by
    intro v
    rw [hnames, List.mem_map]
    constructor
    · rintro ⟨name, hname, rfl⟩
      rw [String.toList_ofList]
      exact mem_firstOccurrences.1 hname
    · exact fun hv => ⟨v.toList, mem_firstOccurrences.2 hv, String.ofList_toList⟩
  refine ⟨?_, fun v => (hmem v).trans htraced.mem_iff, ?_, fun v hv => ?_, ?_⟩
  · rw [hnames, List.Nodup, List.pairwise_map]
    exact (nodup_firstOccurrences _).imp fun hne heq => hne (String.ofList_injective heq)
  · rw [hnames, List.pairwise_map]
    simp only [String.toList_ofList]
    exact (pairwise_firstOccurrences _).imp htraced.lt_of_earlier
  · rw [htext]
    apply exists_single_of_mem
    rw [← hplaces]
    exact (hmem v).1 hv
  · rw [htext]
    exact exists_pieces t.toList

end ChainCompiler.Template
