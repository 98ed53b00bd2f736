import ChainCompiler.Yaml.Token
import Mathlib.Data.Option.Basic

/-! The order of tokens. A scanner adds tokens at the end, but for those that announce a key, which are put in further
back, and never in front of tokens that were there when no key was possible. -/

namespace ChainCompiler.Yaml

def Token.isContent : Token → Bool
  | .key => false
  | .blockMapping => false
  | _ => true

def Token.isProperty : Token → Bool
  | .anchor _ => true
  | .tag _ => true
  | _ => false

def Token.isScalar : Token → Bool
  | .scalar .. => true
  | _ => false

theorem Token.isContent_of_isProperty {t : Token} (h : t.isProperty = true) : t.isContent = true := by
  cases t with
  | anchor => rfl
  | tag => rfl
  | _ => cases h

namespace Scanner

variable {base content : List Token} {s s' : Scanner}

/-- The tokens are some fixed ones and then others with the given content, and no key can get among the fixed ones. -/
structure Holds (base content : List Token) (s : Scanner) : Prop where
  count : s.count = s.tokens.length
  tokens : ∃ rest, s.tokens.reverse = base ++ rest ∧ rest.filter Token.isContent = content
  keys : ∀ k, some k ∈ s.keyStart :: s.outerKeys → base.length ≤ k.tokens

def lineGap (s : Scanner) : Place :=
  let p := (skipMark s.place).skipWhile fun c => c == ' ' || ((s.flow ≠ 0 || !s.keyAllowed) && c == '\t')
  if p.isAt '#' then p.skipLine else p

theorem skipGap_succ (n : Nat) (s : Scanner) :
    skipGap (n + 1) s =
      if s.lineGap.isBreakHere then
        skipGap n { s with place := s.lineGap.readBreak.2, keyAllowed := s.keyAllowed || s.flow = 0 }
      else { s with place := s.lineGap } := rfl

namespace Holds

theorem congr (h : Holds base content s) (htokens : s'.tokens = s.tokens) (hcount : s'.count = s.count)
    (hkeys : ∀ k, some k ∈ s'.keyStart :: s'.outerKeys → some k ∈ s.keyStart :: s.outerKeys) :
    Holds base content s' :=
  ⟨by rw [hcount, htokens, h.count], by rw [htokens]; exact h.tokens, fun k hk => h.keys k (hkeys k hk)⟩

theorem base_le (h : Holds base content s) : base.length ≤ s.count := by
  obtain ⟨rest, hrest, -⟩ := h.tokens
  have hlength := congrArg List.length hrest
  rw [List.length_reverse, List.length_append] at hlength
  rw [h.count]
  omega

theorem emit (h : Holds base content s) (t : Token) : Holds base (content ++ [t].filter Token.isContent) (s.emit t) := by
  refine ⟨by simp [Scanner.emit, h.count], ?_, h.keys⟩
  obtain ⟨rest, hrest, rfl⟩ := h.tokens
  refine ⟨rest ++ [t], ?_, by rw [List.filter_append]⟩
  rw [Scanner.emit, List.reverse_cons, hrest, List.append_assoc]

/-- A token that announces a key is put in. -/
theorem insertAt (h : Holds base content s) {n : Nat} (hn : base.length ≤ n) {t : Token} (ht : t.isContent = false) :
    Holds base content (s.insertAt n t) := by
  have hle := h.base_le
  obtain ⟨rest, hrest, rfl⟩ := h.tokens
  refine ⟨?_, ?_, h.keys⟩
  · simp [Scanner.insertAt, h.count]
    omega
  · have htokens : s.tokens = rest.reverse ++ base.reverse := by
      rw [← List.reverse_append, ← hrest, List.reverse_reverse]
    have hk : s.count - n ≤ rest.reverse.length := by
      have hlength := congrArg List.length htokens
      rw [List.length_append, List.length_reverse, ← h.count] at hlength
      rw [List.length_reverse] at hlength ⊢
      omega
    refine ⟨(rest.reverse.drop (s.count - n)).reverse ++ t :: (rest.reverse.take (s.count - n)).reverse, ?_, ?_⟩
    · simp only [Scanner.insertAt, htokens]
      rw [List.take_append_of_le_length hk, List.drop_append_of_le_length hk]
      simp
    · rw [List.filter_append, List.filter_cons_of_neg (by simp [ht]), ← List.filter_append, ← List.reverse_append,
        List.take_append_drop, List.reverse_reverse]

theorem dropKey (h : Holds base content s) (hs : s.dropKey = some s') : Holds base content s' := by
  unfold Scanner.dropKey at hs
  split at hs
  · cases hs
    exact h
  · split at hs
    · cases hs
    · cases hs
      exact h.congr rfl rfl fun k hk => List.mem_cons_of_mem _ (by simpa using hk)

theorem saveKey (h : Holds base content s) (hs : s.saveKey = some s') : Holds base content s' := by
  unfold Scanner.saveKey at hs
  split at hs
  · obtain ⟨t, ht, hs⟩ := Option.bind_eq_some_iff.1 hs
    cases hs
    have ht := h.dropKey ht
    refine ⟨ht.count, ht.tokens, ?_⟩
    rintro k hk
    rcases List.mem_cons.1 hk with hk | hk
    · cases hk
      exact ht.base_le
    · exact ht.keys k (List.mem_cons_of_mem _ hk)
  · cases hs
    exact h

theorem skipGap (h : Holds base content s) (n : Nat) : Holds base content (skipGap n s) := by
  induction n generalizing s with
  | zero => exact h
  | succ n ih =>
    rw [skipGap_succ]
    split
    · exact ih (h.congr rfl rfl fun _ hk => hk)
    · exact h.congr rfl rfl fun _ hk => hk

theorem exists_of_mem_mapM {α β : Type} {f : α → Option β} {l : List α} {l' : List β} {b : β} (h : l.mapM f = some l')
    (hb : b ∈ l') : ∃ a ∈ l, f a = some b := by
  induction l generalizing l' with
  | nil =>
    cases h
    cases hb
  | cons a l ih =>
    rw [List.mapM_cons] at h
    obtain ⟨c, hc, h⟩ := Option.bind_eq_some_iff.1 h
    obtain ⟨cs, hcs, h⟩ := Option.bind_eq_some_iff.1 h
    cases h
    rcases List.mem_cons.1 hb with rfl | hb
    · exact ⟨a, by simp, hc⟩
    · obtain ⟨a', ha', hb'⟩ := ih hcs hb
      exact ⟨a', by simp [ha'], hb'⟩

theorem eq_of_checkKey {line left : Nat} {k : KeyStart} {o : Option KeyStart}
    (h : checkKey line left o = some (some k)) : o = some k := by
  cases o with
  | none => cases h
  | some k' =>
    rw [checkKey] at h
    split at h
    · split at h <;> cases h
    · cases h
      rfl

theorem checkKeys (h : Holds base content s) (hs : s.checkKeys = some s') : Holds base content s' := by
  unfold Scanner.checkKeys at hs
  obtain ⟨top, htop, hs⟩ := Option.bind_eq_some_iff.1 hs
  obtain ⟨others, hothers, hs⟩ := Option.bind_eq_some_iff.1 hs
  cases hs
  refine h.congr rfl rfl fun k hk => ?_
  rcases List.mem_cons.1 hk with rfl | hk
  · rw [eq_of_checkKey htop]
    exact List.mem_cons_self
  · refine List.mem_cons_of_mem _ ?_
    obtain ⟨o, ho, hcheck⟩ := exists_of_mem_mapM hothers hk
    rwa [← eq_of_checkKey hcheck]

theorem closeBlocks (h : Holds base content s) (column : Int) (outer : List Int) :
    ∃ n, Holds base (content ++ List.replicate n .blockEnd) (closeBlocks column outer s) := by
  induction outer generalizing s content with
  | nil => exact ⟨0, by simpa [Scanner.closeBlocks] using h⟩
  | cons i outer ih =>
    rw [Scanner.closeBlocks]
    split
    · have hclosed : Holds base (content ++ [.blockEnd]) { s.emit .blockEnd with indent := i, outer := outer } :=
        (h.emit .blockEnd).congr rfl rfl fun _ hk => hk
      obtain ⟨n, hn⟩ := ih hclosed
      exact ⟨n + 1, by simpa [List.replicate_succ] using hn⟩
    · exact ⟨0, by simpa using h⟩

theorem unroll (h : Holds base content s) (column : Int) :
    ∃ n, Holds base (content ++ List.replicate n .blockEnd) (s.unroll column) := h.closeBlocks column s.outer

/-- Opening a block at the place of a possible key. -/
theorem roll (h : Holds base content s) (column : Nat) {n : Nat} (hn : base.length ≤ n) {t : Token}
    (ht : t.isContent = false) : Holds base content (s.roll column n t) := by
  unfold Scanner.roll
  split
  · exact (h.insertAt hn ht).congr rfl rfl fun _ hk => hk
  · exact h

theorem flowStart (h : Holds base content s) {t : Token} (hs : s.flowStart t = some s') :
    Holds base (content ++ [t].filter Token.isContent) s' := by
  obtain ⟨u, hu, hs⟩ := Option.bind_eq_some_iff.1 hs
  cases hs
  have hopened : Holds base content
      { u with outerKeys := u.keyStart :: u.outerKeys, keyStart := none, flow := u.flow + 1, keyAllowed := true } :=
    (h.saveKey hu).congr rfl rfl fun k hk => by simpa using hk
  exact (hopened.emit t).congr rfl rfl fun _ hk => hk

theorem flowEnd (h : Holds base content s) {t : Token} (hs : s.flowEnd t = some s') :
    Holds base (content ++ [t].filter Token.isContent) s' := by
  obtain ⟨u, hu, hs⟩ := Option.bind_eq_some_iff.1 hs
  have hu := h.dropKey hu
  cases hs
  split
  · next k ks hkeys =>
    have hclosed : Holds base content
        (Scanner.setAllowed { u with keyStart := k, outerKeys := ks, flow := u.flow - 1 } false) :=
      hu.congr rfl rfl fun k' hk => List.mem_cons_of_mem _ (by rw [hkeys]; exact hk)
    exact (hclosed.emit t).congr rfl rfl fun _ hk => hk
  · have hclosed : Holds base content (u.setAllowed false) := hu.congr rfl rfl fun _ hk => hk
    exact (hclosed.emit t).congr rfl rfl fun _ hk => hk

theorem flowEntry (h : Holds base content s) (hs : s.flowEntry = some s') : Holds base (content ++ [.flowEntry]) s' := by
  obtain ⟨u, hu, hs⟩ := Option.bind_eq_some_iff.1 hs
  cases hs
  have hu : Holds base content (u.setAllowed true) := (h.dropKey hu).congr rfl rfl fun _ hk => hk
  exact (hu.emit .flowEntry).congr rfl rfl fun _ hk => hk

theorem insertAt_count (s : Scanner) (t : Token) : s.insertAt s.count t = s.emit t := by
  simp [Scanner.insertAt, Scanner.emit]

theorem blockEntry (h : Holds base content s) (hs : s.blockEntry = some s') :
    ∃ ts, (ts = [] ∨ ts = [.blockSequence]) ∧ Holds base (content ++ ts ++ [.blockEntry]) s' := by
  obtain ⟨-, -, hs⟩ := Option.bind_eq_some_iff.1 hs
  obtain ⟨u, hu, hs⟩ := Option.bind_eq_some_iff.1 hs
  cases hs
  obtain ⟨ts, hts, hrolled⟩ : ∃ ts, (ts = [] ∨ ts = [.blockSequence]) ∧
      Holds base (content ++ ts) (s.rollHere .blockSequence) := by
    unfold Scanner.rollHere Scanner.roll
    split
    · refine ⟨[.blockSequence], .inr rfl, ?_⟩
      rw [insertAt_count]
      exact (h.emit .blockSequence).congr rfl rfl fun _ hk => hk
    · exact ⟨[], .inl rfl, by simpa using h⟩
  have hu : Holds base (content ++ ts) (u.setAllowed true) := (hrolled.dropKey hu).congr rfl rfl fun _ hk => hk
  exact ⟨ts, hts, (hu.emit .blockEntry).congr rfl rfl fun _ hk => hk⟩

theorem keyMark (h : Holds base content s) (hs : s.keyMark = some s') : Holds base content s' := by
  obtain ⟨-, -, hs⟩ := Option.bind_eq_some_iff.1 hs
  obtain ⟨u, hu, hs⟩ := Option.bind_eq_some_iff.1 hs
  cases hs
  have hu : Holds base content (u.setAllowed (u.flow = 0)) :=
    ((h.roll _ h.base_le rfl).dropKey hu).congr rfl rfl fun _ hk => hk
  have hmarked := hu.emit .key
  rw [List.filter_cons_of_neg (by decide), List.filter_nil, List.append_nil] at hmarked
  exact hmarked.congr rfl rfl fun _ hk => hk

theorem valueMark (h : Holds base content s) (hs : s.valueMark = some s') : Holds base (content ++ [.value]) s' := by
  unfold Scanner.valueMark at hs
  split at hs
  · next k hk =>
    cases hs
    have hle : base.length ≤ k.tokens := h.keys k (by rw [hk]; exact List.mem_cons_self)
    have hrolled := (h.insertAt hle (t := .key) rfl).roll k.column hle (t := .blockMapping) rfl
    have hcleared : Holds base content { (s.insertAt k.tokens .key).roll k.column k.tokens .blockMapping with
        keyStart := none, keyAllowed := false } :=
      hrolled.congr rfl rfl fun k' hk' => List.mem_cons_of_mem _ (by simpa using hk')
    exact (hcleared.emit .value).congr rfl rfl fun _ hk => hk
  · obtain ⟨-, -, hs⟩ := Option.bind_eq_some_iff.1 hs
    cases hs
    have hrolled : Holds base content ((s.rollHere .blockMapping).setAllowed ((s.rollHere .blockMapping).flow = 0)) :=
      (h.roll s.place.column h.base_le rfl).congr rfl rfl fun _ hk => hk
    exact (hrolled.emit .value).congr rfl rfl fun _ hk => hk

theorem takeScalar (h : Holds base content s) (r : Scanned) (isPlain : Bool) :
    Holds base (content ++ [.scalar (String.ofList r.text) isPlain]) (s.takeScalar r isPlain) := by
  have hplaced : Holds base content { s with place := r.place, keyAllowed := s.keyAllowed || r.broken } :=
    h.congr rfl rfl fun _ hk => hk
  exact hplaced.emit (.scalar (String.ofList r.text) isPlain)

theorem boundary (h : Holds base content s) {t : Token} (hs : s.boundary t = some s') :
    ∃ n, Holds base (content ++ List.replicate n .blockEnd ++ [t].filter Token.isContent) s' := by
  obtain ⟨u, hu, hs⟩ := Option.bind_eq_some_iff.1 hs
  cases hs
  obtain ⟨n, hn⟩ := h.unroll (-1)
  have hu : Holds base (content ++ List.replicate n .blockEnd) (u.setAllowed false) :=
    (hn.dropKey hu).congr rfl rfl fun _ hk => hk
  exact ⟨n, (hu.emit t).congr rfl rfl fun _ hk => hk⟩

theorem versionDirective_eq {p q : Place} {t : Token} (h : versionDirective p = some (t, q)) :
    ∃ major minor, t = .version major minor := by
  obtain ⟨⟨major, _⟩, _, h⟩ := Option.bind_eq_some_iff.1 h
  obtain ⟨_, _, h⟩ := Option.bind_eq_some_iff.1 h
  obtain ⟨⟨minor, _⟩, _, h⟩ := Option.bind_eq_some_iff.1 h
  cases h
  exact ⟨major, minor, rfl⟩

theorem tagDirective_eq {p q : Place} {t : Token} (h : tagDirective p = some (t, q)) :
    ∃ handle, t = .tagDirective handle := by
  obtain ⟨_, _, h⟩ := Option.bind_eq_some_iff.1 h
  obtain ⟨_, _, h⟩ := Option.bind_eq_some_iff.1 h
  obtain ⟨_, _, h⟩ := Option.bind_eq_some_iff.1 h
  obtain ⟨_, _, h⟩ := Option.bind_eq_some_iff.1 h
  obtain ⟨_, _, h⟩ := Option.bind_eq_some_iff.1 h
  cases h
  exact ⟨_, rfl⟩

theorem directiveOf_eq {name : List Char} {p q : Place} {t : Token} (h : directiveOf name p = some (t, q)) :
    t.isProperty = false ∧ t.isScalar = false ∧ t.isContent = true := by
  unfold Scanner.directiveOf at h
  split at h
  · obtain ⟨major, minor, rfl⟩ := versionDirective_eq h
    exact ⟨rfl, rfl, rfl⟩
  · split at h
    · obtain ⟨handle, rfl⟩ := tagDirective_eq h
      exact ⟨rfl, rfl, rfl⟩
    · cases h

theorem directive (h : Holds base content s) (hs : s.directive = some s') :
    ∃ n t, t.isProperty = false ∧ t.isScalar = false ∧
      Holds base (content ++ List.replicate n .blockEnd ++ [t]) s' := by
  obtain ⟨u, hu, hs⟩ := Option.bind_eq_some_iff.1 hs
  obtain ⟨_, _, hs⟩ := Option.bind_eq_some_iff.1 hs
  obtain ⟨⟨t, q⟩, ht, hs⟩ := Option.bind_eq_some_iff.1 hs
  obtain ⟨_, _, hs⟩ := Option.bind_eq_some_iff.1 hs
  cases hs
  obtain ⟨hproperty, hscalar, hcontent⟩ := directiveOf_eq ht
  obtain ⟨n, hn⟩ := h.unroll (-1)
  refine ⟨n, t, hproperty, hscalar, ?_⟩
  have hemitted := (hn.dropKey hu).emit t
  rw [List.filter_cons_of_pos hcontent, List.filter_nil] at hemitted
  exact hemitted.congr rfl rfl fun _ hk => hk

end Holds

theorem dropKey_eq (h : s.dropKey = some s') : ∃ k, s' = { s with keyStart := k } := by
  unfold Scanner.dropKey at h
  split at h
  · cases h
    exact ⟨s.keyStart, rfl⟩
  · split at h
    · cases h
    · cases h
      exact ⟨none, rfl⟩

theorem saveKey_eq (h : s.saveKey = some s') : ∃ k, s' = { s with keyStart := k } := by
  unfold Scanner.saveKey at h
  split at h
  · obtain ⟨t, ht, h⟩ := Option.bind_eq_some_iff.1 h
    obtain ⟨k, rfl⟩ := dropKey_eq ht
    cases h
    exact ⟨_, rfl⟩
  · cases h
    exact ⟨s.keyStart, rfl⟩

/-- What a step of a scanner adds to the content, with what it reads where that is a scalar or belongs to one. -/
inductive Takes (s s' : Scanner) : List Token → Prop
  | plain {r : Scanned} : ¬(s.place.isAt '-' && s.place.isGap 1) → s.startsPlain = true →
    plain (s.flow ≠ 0) (s.indent + 1) s.place = some r → Takes s s' [.scalar (String.ofList r.text) true]
  | quoted {single : Bool} {r : Scanned} : s.place.isAt (if single then '\x27' else '"') = true →
    quoted single s.place = some r → Takes s s' [.scalar (String.ofList r.text) false]
  | block {literal : Bool} {r : Scanned} : s.place.isAt (if literal then '|' else '>') = true →
    block literal s.indent s.place = some r → Takes s s' [.scalar (String.ofList r.text) false]
  | anchor {name : String} : s.place.isAt '&' = true → s'.place = (s.place.advance.span isNameChar).2 →
    Takes s s' [.anchor name]
  | tag {handle : String} : s.place.isAt '!' = true → readTag s.place = some (handle, s'.place) →
    Takes s s' [.tag handle]
  | key : s.place.isAt '?' = true → (s.flow ≠ 0 || s.keyAllowed) = true → s'.place = s.place.advance → Takes s s' []
  | other {t : Token} {ts : List Token} : t.isProperty = false → t.isScalar = false → Takes s s' (t :: ts)

theorem takes_plainScalar (h : Holds base content s) (hentry : ¬(s.place.isAt '-' && s.place.isGap 1))
    (hstart : s.startsPlain = true) (hs : s.plainScalar = some s') :
    ∃ ts, Takes s s' ts ∧ Holds base (content ++ ts) s' := by
  obtain ⟨u, hu, hs⟩ := Option.bind_eq_some_iff.1 hs
  obtain ⟨r, hr, hs⟩ := Option.bind_eq_some_iff.1 hs
  cases hs
  have hsaved : Holds base content (u.setAllowed false) := (h.saveKey hu).congr rfl rfl fun _ hk => hk
  obtain ⟨k, rfl⟩ := saveKey_eq hu
  exact ⟨_, .plain hentry hstart hr, hsaved.takeScalar r true⟩

theorem takes_quotedScalar (single : Bool) (h : Holds base content s)
    (hquote : s.place.isAt (if single then '\x27' else '"') = true) (hs : s.quotedScalar single = some s') :
    ∃ ts, Takes s s' ts ∧ Holds base (content ++ ts) s' := by
  obtain ⟨u, hu, hs⟩ := Option.bind_eq_some_iff.1 hs
  obtain ⟨r, hr, hs⟩ := Option.bind_eq_some_iff.1 hs
  cases hs
  have hsaved : Holds base content (u.setAllowed false) := (h.saveKey hu).congr rfl rfl fun _ hk => hk
  obtain ⟨k, rfl⟩ := saveKey_eq hu
  exact ⟨_, .quoted hquote hr, hsaved.takeScalar r false⟩

theorem takes_blockScalar (literal : Bool) (h : Holds base content s)
    (hmark : s.place.isAt (if literal then '|' else '>') = true) (hs : s.blockScalar literal = some s') :
    ∃ ts, Takes s s' ts ∧ Holds base (content ++ ts) s' := by
  obtain ⟨u, hu, hs⟩ := Option.bind_eq_some_iff.1 hs
  obtain ⟨r, hr, hs⟩ := Option.bind_eq_some_iff.1 hs
  cases hs
  have hdropped : Holds base content (u.setAllowed true) := (h.dropKey hu).congr rfl rfl fun _ hk => hk
  obtain ⟨k, rfl⟩ := dropKey_eq hu
  exact ⟨_, .block hmark hr, hdropped.takeScalar r false⟩

theorem holds_name (h : Holds base content s) {t : String → Token} (hs : s.name t = some s') :
    ∃ n, s'.place = (s.place.advance.span isNameChar).2 ∧ Holds base (content ++ [t n].filter Token.isContent) s' := by
  obtain ⟨u, hu, hs⟩ := Option.bind_eq_some_iff.1 hs
  obtain ⟨_, _, hs⟩ := Option.bind_eq_some_iff.1 hs
  cases hs
  have hsaved := h.saveKey hu
  obtain ⟨k, rfl⟩ := saveKey_eq hu
  exact ⟨_, rfl, (hsaved.emit _).congr rfl rfl fun _ hk => hk⟩

theorem takes_tagProperty (h : Holds base content s) (hmark : s.place.isAt '!' = true) (hs : s.tagProperty = some s') :
    ∃ ts, Takes s s' ts ∧ Holds base (content ++ ts) s' := by
  obtain ⟨u, hu, hs⟩ := Option.bind_eq_some_iff.1 hs
  obtain ⟨⟨handle, p⟩, hp, hs⟩ := Option.bind_eq_some_iff.1 hs
  obtain ⟨_, _, hs⟩ := Option.bind_eq_some_iff.1 hs
  cases hs
  have hsaved := h.saveKey hu
  obtain ⟨k, rfl⟩ := saveKey_eq hu
  exact ⟨_, .tag hmark hp, (hsaved.emit (.tag handle)).congr rfl rfl fun _ hk => hk⟩

theorem takes_keyMark (h : Holds base content s) (hmark : s.place.isAt '?' = true) (hs : s.keyMark = some s') :
    ∃ ts, Takes s s' ts ∧ Holds base (content ++ ts) s' := by
  refine ⟨[], ?_, by simpa using h.keyMark hs⟩
  obtain ⟨_, hguard, hs⟩ := Option.bind_eq_some_iff.1 hs
  obtain ⟨u, hu, hs⟩ := Option.bind_eq_some_iff.1 hs
  cases hs
  obtain ⟨k, rfl⟩ := dropKey_eq hu
  refine .key hmark ?_ ?_
  · have hallowed : s.flow = 0 → s.keyAllowed = true := by simpa [guard, failure] using hguard
    by_cases hflow : s.flow = 0
    · simp [hallowed hflow]
    · simp [hflow]
  · have hplace : (s.rollHere .blockMapping).place = s.place := by
      unfold Scanner.rollHere Scanner.roll
      split <;> rfl
    exact congrArg Place.advance hplace

/-- Blocks that end come before the token that ends them. -/
theorem takes_closed {n : Nat} {t : Token} (hproperty : t.isProperty = false) (hscalar : t.isScalar = false)
    (h : Holds base (content ++ List.replicate n .blockEnd ++ [t]) s') :
    ∃ ts, Takes s s' ts ∧ Holds base (content ++ ts) s' := by
  cases n with
  | zero => exact ⟨[t], .other hproperty hscalar, by simpa using h⟩
  | succ n =>
    refine ⟨.blockEnd :: (List.replicate n .blockEnd ++ [t]), .other rfl rfl, ?_⟩
    simpa [List.replicate_succ] using h

theorem of_ite_eq_some {α : Type} {c : Prop} [Decidable c] {a b : Option α} {x : α}
    (h : (if c then a else b) = some x) : c ∧ a = some x ∨ ¬c ∧ b = some x := by
  by_cases hc : c
  · exact .inl ⟨hc, by rwa [if_pos hc] at h⟩
  · exact .inr ⟨hc, by rwa [if_neg hc] at h⟩

/-- One step of a scanner. -/
theorem token_takes (h : Holds base content s) (hs : s.token = some s') :
    ∃ ts, Takes s s' ts ∧ Holds base (content ++ ts) s' := by
  unfold Scanner.token at hs
  rcases of_ite_eq_some hs with ⟨-, hs⟩ | ⟨-, hs⟩
  · obtain ⟨n, t, hproperty, hscalar, hholds⟩ := h.directive hs
    exact takes_closed hproperty hscalar hholds
  rcases of_ite_eq_some hs with ⟨-, hs⟩ | ⟨-, hs⟩
  · obtain ⟨n, hholds⟩ := h.boundary hs
    exact takes_closed rfl rfl hholds
  rcases of_ite_eq_some hs with ⟨-, hs⟩ | ⟨-, hs⟩
  · obtain ⟨n, hholds⟩ := h.boundary hs
    exact takes_closed rfl rfl hholds
  rcases of_ite_eq_some hs with ⟨-, hs⟩ | ⟨-, hs⟩
  · exact ⟨_, .other rfl rfl, h.flowStart hs⟩
  rcases of_ite_eq_some hs with ⟨-, hs⟩ | ⟨-, hs⟩
  · exact ⟨_, .other rfl rfl, h.flowStart hs⟩
  rcases of_ite_eq_some hs with ⟨-, hs⟩ | ⟨-, hs⟩
  · exact ⟨_, .other rfl rfl, h.flowEnd hs⟩
  rcases of_ite_eq_some hs with ⟨-, hs⟩ | ⟨-, hs⟩
  · exact ⟨_, .other rfl rfl, h.flowEnd hs⟩
  rcases of_ite_eq_some hs with ⟨-, hs⟩ | ⟨-, hs⟩
  · exact ⟨_, .other rfl rfl, h.flowEntry hs⟩
  rcases of_ite_eq_some hs with ⟨-, hs⟩ | ⟨hentry, hs⟩
  · obtain ⟨ts, rfl | rfl, hholds⟩ := h.blockEntry hs
    · exact ⟨_, .other rfl rfl, by simpa using hholds⟩
    · exact ⟨_, .other rfl rfl, by simpa using hholds⟩
  rcases of_ite_eq_some hs with ⟨hmark, hs⟩ | ⟨-, hs⟩
  · exact takes_keyMark h (Bool.and_eq_true_iff.1 hmark).1 hs
  rcases of_ite_eq_some hs with ⟨-, hs⟩ | ⟨-, hs⟩
  · exact ⟨_, .other rfl rfl, h.valueMark hs⟩
  rcases of_ite_eq_some hs with ⟨-, hs⟩ | ⟨-, hs⟩
  · obtain ⟨n, -, hholds⟩ := holds_name h hs
    exact ⟨_, .other rfl rfl, hholds⟩
  rcases of_ite_eq_some hs with ⟨hmark, hs⟩ | ⟨-, hs⟩
  · obtain ⟨n, hplace, hholds⟩ := holds_name h hs
    exact ⟨_, .anchor hmark hplace, hholds⟩
  rcases of_ite_eq_some hs with ⟨hmark, hs⟩ | ⟨-, hs⟩
  · exact takes_tagProperty h hmark hs
  rcases of_ite_eq_some hs with ⟨hmark, hs⟩ | ⟨-, hs⟩
  · exact takes_blockScalar true h (Bool.and_eq_true_iff.1 hmark).1 hs
  rcases of_ite_eq_some hs with ⟨hmark, hs⟩ | ⟨-, hs⟩
  · exact takes_blockScalar false h (Bool.and_eq_true_iff.1 hmark).1 hs
  rcases of_ite_eq_some hs with ⟨hmark, hs⟩ | ⟨-, hs⟩
  · exact takes_quotedScalar true h hmark hs
  rcases of_ite_eq_some hs with ⟨hmark, hs⟩ | ⟨-, hs⟩
  · exact takes_quotedScalar false h hmark hs
  rcases of_ite_eq_some hs with ⟨hstart, hs⟩ | ⟨-, hs⟩
  · exact takes_plainScalar h hentry hstart hs
  · cases hs

/-- The tokens of a whole text keep what a scanner holds on its way. -/
theorem run_holds (h : Holds base content s) {n : Nat} {ts : List Token} (hrun : s.run n = some ts) :
    ∃ rest, ts = base ++ rest ∧ content <+: rest.filter Token.isContent := by
  induction n generalizing s content with
  | zero => cases hrun
  | succ n ih =>
    rw [Scanner.run] at hrun
    obtain ⟨u, hu, hrun⟩ := Option.bind_eq_some_iff.1 hrun
    obtain ⟨m, hm⟩ := ((h.skipGap (n + 1)).checkKeys hu).unroll u.place.column
    rcases of_ite_eq_some hrun with ⟨-, hrun⟩ | ⟨-, hrun⟩
    · obtain ⟨v, hv, hrun⟩ := Option.bind_eq_some_iff.1 hrun
      cases hrun
      obtain ⟨m', hm'⟩ := hm.unroll (-1)
      obtain ⟨rest, hrest, hcontent⟩ := ((hm'.dropKey hv).emit .streamEnd).tokens
      refine ⟨rest, hrest, ?_⟩
      rw [hcontent, List.append_assoc, List.append_assoc]
      exact List.prefix_append _ _
    · obtain ⟨v, hv, hrun⟩ := Option.bind_eq_some_iff.1 hrun
      obtain ⟨ts', -, hholds⟩ := token_takes hm hv
      obtain ⟨rest, hrest, hcontent⟩ := ih hholds hrun
      refine ⟨rest, hrest, List.IsPrefix.trans ?_ hcontent⟩
      rw [List.append_assoc]
      exact List.prefix_append _ _

end Scanner

end ChainCompiler.Yaml
