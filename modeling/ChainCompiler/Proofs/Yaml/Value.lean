import ChainCompiler.Proofs.Yaml.Marks
import ChainCompiler.Proofs.Yaml.Order
import Mathlib.Data.Bool.Basic
import Mathlib.Data.List.TakeWhile

/-! The value of a key, when the value is put into a line as it is. Only a plain scalar can have that text as its
contents: the other scalars have marks that their contents pay for, and whatever else stands at the start of the line is
not where a plain scalar starts. -/

namespace ChainCompiler.Yaml

variable {text next : List Char} {p q : Place}

def openers : List Char := ['#', '&', '!', '?', '\x27', '"', '|', '>', '\ufeff']

/-- The lines after a text. They start with a word, and hold none of the marks that scalars pay with. -/
structure Follows (next : List Char) : Prop where
  starts : ∃ c cs, next = c :: cs ∧ isSpace c = false ∧ isBreak c = false ∧
    c ∉ openers
  marks : ∀ x ∈ ['\x27', '\\', '|', '>'], x ∉ next

namespace Place

def InLine (text next : List Char) (p : Place) : Prop := ∃ u, u <:+ text ∧ p.rest = u ++ '\n' :: next

def Within (text next : List Char) (p : Place) : Prop := InLine text next p ∨ p.rest = next

/-- Some characters further on the same line. -/
def Along (p q : Place) : Prop := ∃ w, p.rest = w ++ q.rest ∧ '\n' ∉ w

theorem Along.refl (p : Place) : Along p p := ⟨[], rfl, by simp⟩

theorem Along.trans {r : Place} (h : Along p q) (h' : Along q r) : Along p r := by
  obtain ⟨w, hw, hnot⟩ := h
  obtain ⟨w', hw', hnot'⟩ := h'
  exact ⟨w ++ w', by rw [hw, hw', List.append_assoc], by simp [hnot, hnot']⟩

theorem InLine.along (h : InLine text next p) (hq : Along p q) : InLine text next q := by
  obtain ⟨u, hu, hrest⟩ := h
  obtain ⟨w, hw, hnot⟩ := hq
  rw [hrest] at hw
  rcases List.append_eq_append_iff.1 hw with ⟨v, rfl, hv⟩ | ⟨v, rfl, hv⟩
  · cases v with
    | nil => exact ⟨[], List.nil_suffix, by simpa using hv.symm⟩
    | cons c v =>
      obtain ⟨rfl, -⟩ := List.cons.inj hv
      simp at hnot
  · exact ⟨v, (List.suffix_append w v).trans hu, hv⟩

theorem along_span (p : Place) {test : Char → Bool} (h : test '\n' = false) : Along p (p.span test).2 := by
  refine ⟨(p.span test).1, (p.span_append test).symm, fun hmem => ?_⟩
  rw [List.mem_takeWhile_imp hmem] at h
  cases h

theorem along_advance (p : Place) {c : Char} (h : p.isAt c = true) (hc : c ≠ '\n') : Along p p.advance := by
  obtain ⟨_ | ⟨d, cs⟩, line, column⟩ := p
  · cases h
  · obtain rfl : d = c := by simpa using h
    exact ⟨[d], rfl, by simpa using hc.symm⟩

end Place

namespace Scanner

open Place

/-! Tags stay on their line. -/

theorem of_guard {c : Prop} [Decidable c] {u : Unit} (h : (guard c : Option Unit) = some u) : c := by
  by_contra hc
  simp [guard, hc, failure] at h

theorem hexValue?_of_foldlM {ds : List Char} {m n : Nat}
    (h : ds.foldlM (fun n c => (hexValue? c).map (n * 16 + ·)) m = some n) : ∀ d ∈ ds, (hexValue? d).isSome = true := by
  induction ds generalizing m with
  | nil => simp
  | cons d ds ih =>
    rw [List.foldlM_cons] at h
    obtain ⟨k, hk, h⟩ := Option.bind_eq_some_iff.1 h
    obtain ⟨v, hv, -⟩ := Option.map_eq_some_iff.1 hk
    rw [List.forall_mem_cons]
    exact ⟨by rw [hv]; rfl, ih h⟩

theorem along_of_byte? {b : Nat} (h : byte? p = some b) : Along p (p.advance 3) := by
  obtain ⟨_, hpercent, h⟩ := Option.bind_eq_some_iff.1 h
  obtain ⟨_, hlength, h⟩ := Option.bind_eq_some_iff.1 h
  have hpercent := of_guard hpercent
  have hlength := of_guard hlength
  obtain ⟨_ | ⟨c, cs⟩, line, column⟩ := p
  · cases hpercent
  · obtain rfl : c = '%' := by simpa using hpercent
    have hdigits := hexValue?_of_foldlM h
    match cs, hlength, hdigits with
    | d :: d' :: cs, _, hdigits =>
      refine ⟨['%', d, d'], rfl, fun hmem => ?_⟩
      have hmem : '\n' ∈ [d, d'] := by simpa using hmem
      have hvalue := hdigits '\n' hmem
      cases hvalue

theorem along_of_skipBytes {n : Nat} (h : skipBytes n p = some q) : Along p q := by
  induction n generalizing p with
  | zero =>
    cases h
    exact .refl _
  | succ n ih =>
    obtain ⟨b, hb, h⟩ := Option.bind_eq_some_iff.1 h
    obtain ⟨_, _, h⟩ := Option.bind_eq_some_iff.1 h
    exact (along_of_byte? hb).trans (ih h)

theorem along_of_skipCoded (h : skipCoded p = some q) : Along p q := by
  obtain ⟨b, hb, h⟩ := Option.bind_eq_some_iff.1 h
  obtain ⟨n, hn, h⟩ := Option.bind_eq_some_iff.1 h
  exact (along_of_byte? hb).trans (along_of_skipBytes h)

theorem along_of_tagSpan {verbatim : Bool} {n : Nat} (h : tagSpan verbatim n p = some q) : Along p q := by
  induction n generalizing p with
  | zero =>
    cases h
    exact .refl _
  | succ n ih =>
    rw [tagSpan] at h
    rcases of_ite_eq_some h with ⟨-, h⟩ | ⟨-, h⟩
    · obtain ⟨r, hr, h⟩ := Option.bind_eq_some_iff.1 h
      exact (along_of_skipCoded hr).trans (ih h)
    · rcases of_ite_eq_some h with ⟨hchar, h⟩ | ⟨-, h⟩
      · obtain ⟨_ | ⟨c, cs⟩, line, column⟩ := p
        · cases hchar
        · have hc : c ≠ '\n' := by
            rintro rfl
            cases verbatim <;> cases hchar
          exact (along_advance _ (by simp) hc).trans (ih h)
      · cases h
        exact .refl _

theorem along_of_readTag {handle : String} (hmark : p.isAt '!' = true) (h : readTag p = some (handle, q)) : Along p q := by
  have hmarked : Along p p.advance := p.along_advance hmark (by decide)
  unfold readTag at h
  rcases of_ite_eq_some h with ⟨hangle, h⟩ | ⟨-, h⟩
  · obtain ⟨r, hr, h⟩ := Option.bind_eq_some_iff.1 h
    obtain ⟨_, hguard, h⟩ := Option.bind_eq_some_iff.1 h
    have hguard := of_guard hguard
    cases h
    have hopened : Along p (p.advance 2) := by
      obtain ⟨_ | ⟨c, _ | ⟨d, cs⟩⟩, line, column⟩ := p
      · cases hmark
      · cases hangle
      · obtain rfl : c = '!' := by simpa using hmark
        obtain rfl : d = '<' := by simpa [isAt, peek?] using hangle
        exact ⟨['!', '<'], rfl, by decide⟩
    exact (hopened.trans (along_of_tagSpan hr)).trans (r.along_advance (Bool.and_eq_true_iff.1 hguard).2 (by decide))
  · rcases of_ite_eq_some h with ⟨hbang, h⟩ | ⟨-, h⟩
    · obtain ⟨r, hr, h⟩ := Option.bind_eq_some_iff.1 h
      obtain ⟨_, hguard, h⟩ := Option.bind_eq_some_iff.1 h
      cases h
      have hhandle := (hmarked.trans (p.advance.along_span rfl)).trans (along_advance _ hbang (by decide))
      exact hhandle.trans (along_of_tagSpan hr)
    · obtain ⟨r, hr, h⟩ := Option.bind_eq_some_iff.1 h
      cases h
      exact (hmarked.trans (p.advance.along_span rfl)).trans (along_of_tagSpan hr)

variable {s s' : Scanner}

theorem along_lineGap (s : Scanner) : Along s.place s.lineGap := by
  have hmark : Along s.place (skipMark s.place) := by
    unfold skipMark
    split
    · next hmark => exact s.place.along_advance (Bool.and_eq_true_iff.1 hmark).2 (by decide)
    · exact .refl _
  have hspaces : Along (skipMark s.place)
      ((skipMark s.place).skipWhile fun c => c == ' ' || ((s.flow ≠ 0 || !s.keyAllowed) && c == '\t')) :=
    along_span _ (by simp)
  refine (hmark.trans hspaces).trans ?_
  simp only [lineGap]
  split
  · exact along_span _ rfl
  · exact .refl _

/-- Before a word there is no gap, unless the word is a comment. -/
theorem lineGap_of_word {c : Char} {cs : List Char} (hrest : s.place.rest = c :: cs) (hspace : isSpace c = false)
    (hc : c ≠ '\ufeff') : s.lineGap = if s.place.isAt '#' then s.place.skipLine else s.place := by
  have hblank : (c == ' ') = false ∧ (c == '\t') = false := by simpa [isSpace] using hspace
  have hmark : skipMark s.place = s.place := by
    simp [skipMark, isAt, peek?, hrest, hc]
  have hnone : s.place.rest.takeWhile (fun c => c == ' ' || ((s.flow ≠ 0 || !s.keyAllowed) && c == '\t')) = [] := by
    simp [hrest, hblank]
  simp only [lineGap, hmark, skipWhile, span, hnone]
  rfl

/-- At the start of the next line there is no gap. -/
theorem lineGap_of_follows (hnext : Follows next) (h : s.place.rest = next) : s.lineGap = s.place := by
  obtain ⟨c, cs, rfl, hspace, -, hnot⟩ := hnext.starts
  simp only [openers, List.mem_cons, not_or] at hnot
  have hhash : s.place.isAt '#' = false := by
    simpa [isAt, peek?, h] using hnot.1
  rw [lineGap_of_word h hspace hnot.2.2.2.2.2.2.2.2.1, hhash]
  rfl

theorem skipGap_within (hnext : Follows next) (h : Within text next s.place) (n : Nat) :
    Within text next (skipGap n s).place := by
  induction n generalizing s with
  | zero => exact h
  | succ n ih =>
    have hgap : Within text next s.lineGap := by
      rcases h with hline | hrest
      · exact .inl (hline.along s.along_lineGap)
      · rw [lineGap_of_follows hnext hrest]
        exact .inr hrest
    rw [skipGap_succ]
    split
    · next hbreak =>
      refine ih ?_
      rcases hgap with ⟨u, hu, hrest⟩ | hrest
      · rcases rest_readBreak hbreak hrest with hnext | ⟨x, v, -, rfl, hrest'⟩
        · exact .inr hnext
        · exact .inl ⟨v, (List.suffix_append x v).trans hu, hrest'⟩
      · obtain ⟨c, cs, rfl, -, hword, -⟩ := hnext.starts
        obtain ⟨d, ds, hd, hbreak'⟩ := isBreakHere_iff.1 hbreak
        rw [hrest] at hd
        obtain ⟨rfl, -⟩ := List.cons.inj hd
        rw [hword] at hbreak'
        cases hbreak'
    · exact hgap

/-! The first token after the properties of a value. -/

/-- A plain scalar starts with the character that it is read from. -/
theorem head_of_plain {flow : Bool} {indent : Int} {r : Scanned} (hspace : p.isSpaceHere = false)
    (hbreak : p.isBreakHere = false) (h : plain flow indent p = some r) : r.text = [] ∨ r.text.head? = p.rest.head? := by
  unfold plain at h
  cases hends : p.isBoundary || p.isAt '#' with
  | true =>
    rw [plainFrom_of_end hends] at h
    cases h
    exact .inl rfl
  | false =>
    cases hk : plainLength? flow p.rest with
    | none => simp [plainFrom, hends, hk] at h
    | some k =>
      cases k with
      | zero =>
        rw [plainFrom_of_colon hends hk hspace hbreak] at h
        cases h
        exact .inl rfl
      | succ k =>
        right
        rw [plainFrom_of_word hends hk] at h
        obtain ⟨_ | ⟨c, cs⟩, line, column⟩ := p
        · cases hk
        · rcases of_ite_eq_some h with ⟨-, h⟩ | ⟨-, h⟩
          · obtain ⟨x, -, h⟩ := Option.bind_eq_some_iff.1 h
            rcases of_ite_eq_some h with ⟨-, h⟩ | ⟨-, h⟩
            · cases h
              rfl
            · obtain ⟨more, -, rfl⟩ := Option.map_eq_some_iff.1 h
              rfl
          · cases h
            rfl

/-- A character that stands before a scalar and never starts a plain one: that of a gap, a comment or a property. -/
def isPrelude (c : Char) : Bool := isSpace c || isBreak c || ['#', '&', '!'].contains c

theorem startsPlain_cases (h : s.startsPlain = true) :
    ∃ c cs, s.place.rest = c :: cs ∧ isPrelude c = false := by
  obtain ⟨⟨_ | ⟨c, cs⟩, line, column⟩, tokens, count, indent, outer, keyStart, outerKeys, keyAllowed, flow⟩ := s
  · simp [startsPlain, isGap, isAt, isAtAny, peek?] at h
  · refine ⟨c, cs, rfl, ?_⟩
    simp only [startsPlain, Bool.or_eq_true, Bool.and_eq_true] at h
    rcases h with (⟨hgap, hspecial⟩ | ⟨hdash, -⟩) | ⟨⟨-, hmark⟩, -⟩
    · simp [isGap, isAtAny, peek?] at hgap hspecial
      simp [isPrelude, hgap, hspecial]
    · obtain rfl : c = '-' := by simpa using hdash
      rfl
    · have hmark : c = '?' ∨ c = ':' := by simpa [isAtAny, peek?] using hmark
      rcases hmark with rfl | rfl <;> rfl

/-- Where a mark of the line after does not stand, a place with that mark is in the line. -/
theorem exists_inLine {x : Char} (hnext : Follows next) (h : Within (' ' :: text) next p) (hx : p.isAt x = true)
    (hmem : x ∈ openers) :
    ∃ u, x :: u <:+ text ∧ p.rest = x :: u ++ '\n' :: next := by
  obtain ⟨rest, line, column⟩ := p
  rcases h with ⟨u, hu, hrest⟩ | hrest
  · simp only at hrest
    subst hrest
    cases u with
    | nil =>
      obtain rfl : '\n' = x := by simpa using hx
      simp [openers] at hmem
    | cons c u =>
      obtain rfl : c = x := by simpa using hx
      rcases List.suffix_cons_iff.1 hu with heq | hu
      · obtain ⟨rfl, -⟩ := List.cons.inj heq
        simp [openers] at hmem
      · exact ⟨u, hu, rfl⟩
  · obtain ⟨c, cs, rfl, -, -, hnot⟩ := hnext.starts
    simp only at hrest
    subst hrest
    obtain rfl : c = x := by simpa using hx
    exact absurd hmem hnot

/-- A text in a line is not the contents of a scalar with marks that starts in the line. -/
theorem exists_plain_of_takes {b : Bool} {ts : List Token} (hnext : Follows next)
    (hplace : Within (' ' :: text) next s.place) (h : Takes s s' ts) (hts : ts = [.scalar (String.ofList text) b]) :
    ¬(s.place.isAt '-' && s.place.isGap 1) ∧ s.startsPlain = true ∧
      ∃ r, plain (s.flow ≠ 0) (s.indent + 1) s.place = some r ∧ r.text = text := by
  have htext {r : Scanned} {b' : Bool}
      (hr : [Token.scalar (String.ofList r.text) b'] = [.scalar (String.ofList text) b]) : r.text = text := by
    simp only [List.cons.injEq, Token.scalar.injEq] at hr
    exact String.ofList_injective hr.1.1
  cases h with
  | plain hentry hstart hr => exact ⟨hentry, hstart, _, hr, htext hts⟩
  | @quoted single r hquote hr =>
    obtain ⟨u, hu, hrest⟩ := exists_inLine hnext hplace hquote (by cases single <;> simp [openers])
    refine absurd (htext hts) (quoted_ne rfl hrest hu ?_ hr)
    rw [List.mem_cons, not_or]
    cases single
    · exact ⟨by decide, hnext.marks _ (by simp [quoteMark])⟩
    · exact ⟨by decide, hnext.marks _ (by simp [quoteMark])⟩
  | @block literal r hmark hr =>
    obtain ⟨u, hu, hrest⟩ := exists_inLine hnext hplace hmark (by cases literal <;> simp [openers])
    refine absurd (htext hts) (block_ne ?_ ?_ hrest hu ?_ hr)
    · cases literal <;> rfl
    · cases literal <;> rfl
    · rw [List.mem_cons, not_or]
      cases literal
      · exact ⟨by decide, hnext.marks _ (by simp)⟩
      · exact ⟨by decide, hnext.marks _ (by simp)⟩
  | anchor => cases hts
  | tag => cases hts
  | key => cases hts
  | other _ hscalar =>
    obtain ⟨rfl, -⟩ := List.cons.inj hts
    cases hscalar

section Run

variable {base content props more rest : List Token} {b : Bool} {n : Nat}

theorem first_cases {t : Token} {ts : List Token} (hprops : ∀ t ∈ props, t.isProperty = true)
    (h : t :: ts <+: props ++ .scalar (String.ofList text) b :: more) :
    props = [] ∧ t = .scalar (String.ofList text) b ∨ ∃ props', props = t :: props' ∧ t.isProperty = true := by
  cases props with
  | nil =>
    rw [List.nil_append, List.cons_prefix_cons] at h
    exact .inl ⟨rfl, h.1⟩
  | cons t' props =>
    rw [List.cons_append, List.cons_prefix_cons] at h
    obtain ⟨rfl, -⟩ := h
    exact .inr ⟨props, rfl, hprops t (by simp)⟩

/-- A step on the way to a scalar closes no block, and what it takes is the next property or the scalar. -/
theorem token_step {m : Nat} (h : Holds base (content ++ List.replicate m .blockEnd) s) (hs : s.token = some s')
    (hrun : s'.run n = some (base ++ rest)) (hprops : ∀ t ∈ props, t.isProperty = true)
    (hrest : rest.filter Token.isContent = content ++ (props ++ .scalar (String.ofList text) b :: more)) :
    ∃ ts, Takes s s' ts ∧ Holds base (content ++ ts) s' ∧ ts <+: props ++ .scalar (String.ofList text) b :: more := by
  obtain ⟨ts, htakes, hholds⟩ := token_takes h hs
  obtain ⟨rest', heq, hlead⟩ := run_holds hholds hrun
  obtain rfl := List.append_cancel_left heq
  rw [hrest, List.append_assoc, List.prefix_append_right_inj] at hlead
  cases m with
  | zero => exact ⟨ts, htakes, by simpa using hholds, hlead⟩
  | succ m =>
    rw [List.replicate_succ, List.cons_append] at hlead
    rcases first_cases hprops hlead with ⟨-, heq⟩ | ⟨-, -, hproperty⟩
    · cases heq
    · cases hproperty

theorem place_checkKeys (h : s.checkKeys = some s') : s'.place = s.place := by
  obtain ⟨top, htop, h⟩ := Option.bind_eq_some_iff.1 h
  obtain ⟨others, hothers, h⟩ := Option.bind_eq_some_iff.1 h
  cases h
  rfl

theorem place_closeBlocks (column : Int) (outer : List Int) (s : Scanner) :
    (closeBlocks column outer s).place = s.place := by
  induction outer generalizing s with
  | nil => rfl
  | cons i outer ih =>
    rw [closeBlocks]
    split
    · rw [ih]
      rfl
    · rfl

variable {d : Char} {u : List Char}

theorem not_takes_of_isPrelude (hnext : Follows next) (hd : isPrelude d = true)
    (hplace : Within (' ' :: d :: u) next s.place) : ¬Takes s s' [.scalar (String.ofList (d :: u)) b] := by
  intro htakes
  obtain ⟨-, hstart, r, hr, htext⟩ := exists_plain_of_takes hnext hplace htakes rfl
  obtain ⟨c, cs, hc, hprelude⟩ := startsPlain_cases hstart
  have hgap : s.place.isSpaceHere = false ∧ s.place.isBreakHere = false := by
    simp only [isPrelude, Bool.or_eq_false_iff] at hprelude
    simp [isSpaceHere, isBreakHere, peek?, hc, hprelude]
  rcases head_of_plain hgap.1 hgap.2 hr with hnil | hhead
  · rw [htext] at hnil
    cases hnil
  · rw [htext, hc] at hhead
    cases hhead
    rw [hd] at hprelude
    cases hprelude

/-- Where a text starts with what stands before scalars, a step in its line only takes properties. -/
theorem step_of_isPrelude {ts : List Token} (hnext : Follows next) (hd : isPrelude d = true)
    (hplace : Within (' ' :: d :: u) next s.place) (hprops : ∀ t ∈ props, t.isProperty = true) (htakes : Takes s s' ts)
    (hlead : ts <+: props ++ .scalar (String.ofList (d :: u)) b :: more) :
    Within (' ' :: d :: u) next s'.place ∧ ∃ props', props = ts ++ props' := by
  have hscalar {t : Token} (ht : t.isProperty = false) (hts : ts = [t]) : False := by
    subst hts
    rcases first_cases hprops hlead with ⟨-, rfl⟩ | ⟨_, -, hproperty⟩
    · exact not_takes_of_isPrelude hnext hd hplace htakes
    · rw [ht] at hproperty
      cases hproperty
  have hproperty {t : Token} (ht : t.isProperty = true) (hts : ts = [t]) : ∃ props', props = ts ++ props' := by
    subst hts
    rcases first_cases hprops hlead with ⟨-, rfl⟩ | ⟨props', rfl, -⟩
    · cases ht
    · exact ⟨props', rfl⟩
  have hfurther {c : Char} (hc : s.place.isAt c = true) (hmem : c ∈ ['&', '!', '?'])
      (halong : Along s.place s'.place) : Within (' ' :: d :: u) next s'.place := by
    obtain ⟨v, hv, hrest⟩ := exists_inLine hnext hplace hc (List.mem_cons_of_mem _ (List.mem_append_left _ hmem))
    exact .inl (InLine.along ⟨c :: v, hv.trans (List.suffix_cons _ _), hrest⟩ halong)
  cases htakes with
  | plain => exact (hscalar rfl rfl).elim
  | quoted => exact (hscalar rfl rfl).elim
  | block => exact (hscalar rfl rfl).elim
  | anchor hmark hplace' =>
    refine ⟨hfurther hmark (by simp) ?_, hproperty rfl rfl⟩
    rw [hplace']
    exact (s.place.along_advance hmark (by decide)).trans (along_span _ rfl)
  | tag hmark htag => exact ⟨hfurther hmark (by simp) (along_of_readTag hmark htag), hproperty rfl rfl⟩
  | key hmark _ hplace' =>
    refine ⟨hfurther hmark (by simp) ?_, props, rfl⟩
    rw [hplace']
    exact s.place.along_advance hmark (by decide)
  | other hnot hnot' =>
    rcases first_cases hprops hlead with ⟨-, rfl⟩ | ⟨_, -, hproperty⟩
    · cases hnot'
    · rw [hnot] at hproperty
      cases hproperty

/-- A text that starts with what stands before scalars is not a scalar that starts in its line. -/
theorem run_ne_of_isPrelude (hnext : Follows next) (hd : isPrelude d = true) (h : Holds base content s)
    (hplace : Within (' ' :: d :: u) next s.place) (hprops : ∀ t ∈ props, t.isProperty = true)
    (hrest : rest.filter Token.isContent = content ++ (props ++ .scalar (String.ofList (d :: u)) b :: more)) :
    s.run n ≠ some (base ++ rest) := by
  intro hrun
  induction n generalizing s content props with
  | zero => cases hrun
  | succ n ih =>
    rw [run] at hrun
    obtain ⟨v, hv, hrun⟩ := Option.bind_eq_some_iff.1 hrun
    obtain ⟨m, hm⟩ := ((h.skipGap (n + 1)).checkKeys hv).unroll v.place.column
    have hwithin : Within (' ' :: d :: u) next (v.unroll v.place.column).place := by
      rw [unroll, place_closeBlocks, place_checkKeys hv]
      exact skipGap_within hnext hplace (n + 1)
    generalize v.unroll v.place.column = w at hm hwithin hrun
    rcases of_ite_eq_some hrun with ⟨hend, -⟩ | ⟨-, hrun⟩
    · rw [atEnd, List.isEmpty_iff] at hend
      obtain ⟨c, cs, rfl, -⟩ := hnext.starts
      rcases hwithin with ⟨u, -, hrest⟩ | hrest
      · simp [hrest] at hend
      · simp [hrest] at hend
    · obtain ⟨x, hx, hrun⟩ := Option.bind_eq_some_iff.1 hrun
      obtain ⟨ts, htakes, hholds, hlead⟩ := token_step hm hx hrun hprops hrest
      obtain ⟨hwithin', props', rfl⟩ := step_of_isPrelude hnext hd hwithin hprops htakes hlead
      have hleft : rest.filter Token.isContent =
          content ++ ts ++ (props' ++ .scalar (String.ofList (d :: u)) b :: more) := by
        rw [hrest, List.append_assoc, List.append_assoc]
      exact ih hholds hwithin' (fun t ht => hprops t (List.mem_append_right _ ht)) hleft hrun

theorem opensPlain_of_startsPlain {line column : Nat} (hplace : s.place = ⟨d :: u ++ '\n' :: next, line, column⟩)
    (hd : isSpace d = false) (hentry : ¬(s.place.isAt '-' && s.place.isGap 1))
    (hstart : s.startsPlain = true) : opensPlain (d :: u) = true := by
  have hword (hgap : s.place.isGap 1 = false) : (u.head?.any fun e => !isSpace e) = true := by
    rw [hplace] at hgap
    cases u with
    | nil => cases hgap
    | cons e u =>
      have hgap : (isSpace e || isBreak e) = false := hgap
      simp [(Bool.or_eq_false_iff.1 hgap).1]
  simp only [startsPlain, Bool.or_eq_true, Bool.and_eq_true] at hstart
  rcases hstart with (⟨-, hspecial⟩ | ⟨hdash, -⟩) | ⟨⟨-, hmark⟩, hgap⟩
  · have hspecial : indicators.contains d = false := by
      rw [hplace] at hspecial
      exact Bool.eq_false_of_not_eq_true' hspecial
    rw [opensPlain, hspecial, hd]
    rfl
  · have hgap : s.place.isGap 1 = false := by simpa [hdash] using hentry
    obtain rfl : d = '-' := by simpa [hplace] using hdash
    rw [opensPlain, hword hgap]
    rfl
  · have hmark : d = '?' ∨ d = ':' := by simpa [hplace, isAtAny, peek?] using hmark
    rw [opensPlain, hword (Bool.eq_false_of_not_eq_true' hgap)]
    rcases hmark with rfl | rfl <;> rfl

/-- A text that does not start so is a scalar at the start of its line only as a plain one. -/
theorem opensPlain_of_token {line column : Nat} (hnext : Follows next) (hd : isPrelude d = false)
    (h : Holds base content s) (hplace : s.place = ⟨d :: u ++ '\n' :: next, line, column + 1⟩) (hflow : s.flow = 0)
    (hindent : s.indent = 0) (hallowed : s.keyAllowed = false) (hs : s.token = some s')
    (hrun : s'.run n = some (base ++ rest)) (hprops : ∀ t ∈ props, t.isProperty = true)
    (hrest : rest.filter Token.isContent = content ++ (props ++ .scalar (String.ofList (d :: u)) b :: more)) :
    opensPlain (d :: u) = true ∧ goesOnPlain false (d :: u) = true ∧ ∀ e ∈ d :: u, isBreak e = false := by
  have hwithin : Within (' ' :: d :: u) next s.place := .inl ⟨d :: u, List.suffix_cons _ _, by rw [hplace]⟩
  obtain ⟨ts, htakes, hholds, hlead⟩ := token_step (m := 0) (by simpa using h) hs hrun hprops hrest
  have hts : ts = [.scalar (String.ofList (d :: u)) b] := by
    have hfirst {t : Token} {ts' : List Token} (hts : ts = t :: ts') (ht : t.isProperty = false) :
        t = .scalar (String.ofList (d :: u)) b := by
      subst hts
      rcases first_cases hprops hlead with ⟨-, heq⟩ | ⟨_, -, hproperty⟩
      · exact heq
      · rw [ht] at hproperty
        cases hproperty
    cases htakes with
    | plain => rw [hfirst rfl rfl]
    | quoted => rw [hfirst rfl rfl]
    | block => rw [hfirst rfl rfl]
    | anchor hmark =>
      obtain rfl : d = '&' := by simpa [hplace] using hmark
      cases hd
    | tag hmark =>
      obtain rfl : d = '!' := by simpa [hplace] using hmark
      cases hd
    | key _ hkey => simp [hflow, hallowed] at hkey
    | other hproperty hscalar =>
      rw [hfirst rfl hproperty] at hscalar
      cases hscalar
  obtain ⟨hentry, hstart, r, hr, htext⟩ := exists_plain_of_takes hnext hwithin htakes hts
  have hr : plain false 1 s.place = some r := by simpa [hflow, hindent] using hr
  obtain ⟨c, cs, rfl, hspace, hbreak, -⟩ := hnext.starts
  simp only [isPrelude, Bool.or_eq_false_iff] at hd
  refine ⟨opensPlain_of_startsPlain hplace hd.1.1 hentry hstart, ?_⟩
  exact goesOnPlain_of_plain hspace hbreak hd.1.1 hd.1.2 (by rw [hplace]) (by rw [hplace]; exact Nat.succ_pos _) hr htext

end Run

end Scanner

end ChainCompiler.Yaml
