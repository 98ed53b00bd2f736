import ChainCompiler.Files.Sources

/-! The texts of paths. A path is its segments with slashes between them, so a location below a path and a change of
extension can be told by their segments. -/

namespace ChainCompiler.Path

theorem splitSlashes_ne_nil (cs : List Char) : splitSlashes cs ≠ [] := by
  cases cs with
  | nil => simp [splitSlashes]
  | cons c cs =>
    unfold splitSlashes
    split
    · simp
    · split <;> simp

theorem splitSlashes_cons {c : Char} (h : c ≠ '/') {cs s : List Char} {ss : List (List Char)}
    (hs : splitSlashes cs = s :: ss) : splitSlashes (c :: cs) = (c :: s) :: ss := by
  rw [splitSlashes, if_neg h, hs]

/-- A slash ends a part. -/
theorem splitSlashes_append (a b : List Char) :
    splitSlashes (a ++ '/' :: b) = splitSlashes a ++ splitSlashes b := by
  induction a with
  | nil => simp [splitSlashes]
  | cons c a ih =>
    by_cases hc : c = '/'
    · simp [splitSlashes, hc, ih]
    · obtain ⟨s, ss, hs⟩ := List.exists_cons_of_ne_nil (splitSlashes_ne_nil a)
      rw [List.cons_append, splitSlashes_cons hc (ih.trans (by rw [hs]; rfl)), splitSlashes_cons hc hs]
      rfl

theorem splitSlashes_of_not_mem {cs : List Char} (h : '/' ∉ cs) : splitSlashes cs = [cs] := by
  induction cs with
  | nil => rfl
  | cons c cs ih =>
    rw [List.mem_cons, not_or] at h
    exact splitSlashes_cons (Ne.symm h.1) (ih h.2)

theorem not_mem_of_mem_splitSlashes {cs s : List Char} (h : s ∈ splitSlashes cs) : '/' ∉ s := by
  induction cs generalizing s with
  | nil =>
    obtain rfl := List.mem_singleton.1 h
    simp
  | cons c cs ih =>
    by_cases hc : c = '/'
    · rw [splitSlashes, if_pos hc] at h
      rcases List.mem_cons.1 h with rfl | h
      · simp
      · exact ih h
    · obtain ⟨t, ts, ht⟩ := List.exists_cons_of_ne_nil (splitSlashes_ne_nil cs)
      rw [splitSlashes_cons hc ht] at h
      rcases List.mem_cons.1 h with rfl | h
      · rw [List.mem_cons, not_or]
        exact ⟨Ne.symm hc, ih (by rw [ht]; simp)⟩
      · exact ih (by rw [ht]; simp [h])

theorem segments_ne_nil (p : Path) : p.segments ≠ [] := by
  rw [segments, ne_eq, List.map_eq_nil_iff]
  exact splitSlashes_ne_nil _

theorem segments_append (a b : String) :
    segments ⟨a ++ "/" ++ b⟩ = segments ⟨a⟩ ++ segments ⟨b⟩ := by
  have htext : (a ++ "/" ++ b).toList = a.toList ++ '/' :: b.toList := by simp
  rw [segments, htext, splitSlashes_append, List.map_append]
  rfl

/-- A text without slashes is one segment. -/
theorem segments_of_not_mem {s : String} (h : '/' ∉ s.toList) : segments ⟨s⟩ = [s] := by
  rw [segments, splitSlashes_of_not_mem h]
  simp

theorem not_mem_of_mem_segments {p : Path} {s : String} (h : s ∈ p.segments) : '/' ∉ s.toList := by
  obtain ⟨cs, hcs, rfl⟩ := List.mem_map.1 h
  rw [String.toList_ofList]
  exact not_mem_of_mem_splitSlashes hcs

/-- Segments with slashes between them are those of a path. -/
theorem segments_intercalate {ss : List String} (hne : ss ≠ []) (h : ∀ s ∈ ss, '/' ∉ s.toList) :
    segments ⟨"/".intercalate ss⟩ = ss := by
  induction ss with
  | nil => exact absurd rfl hne
  | cons s ss ih =>
    rw [List.forall_mem_cons] at h
    by_cases hss : ss = []
    · rw [hss, String.intercalate_singleton]
      exact segments_of_not_mem h.1
    · rw [String.intercalate_cons_of_ne_nil hss, segments_append, segments_of_not_mem h.1, ih hss h.2]
      rfl

theorem intercalate_splitSlashes (cs : List Char) :
    "/".intercalate ((splitSlashes cs).map String.ofList) = String.ofList cs := by
  induction cs with
  | nil => rfl
  | cons c cs ih =>
    obtain ⟨s, ss, hs⟩ := List.exists_cons_of_ne_nil (splitSlashes_ne_nil cs)
    have hcons : String.ofList (c :: cs) = String.ofList [c] ++ String.ofList cs := by simp
    rw [hcons, ← ih]
    by_cases hc : c = '/'
    · rw [splitSlashes, if_pos hc, hs, hc]
      simp [String.intercalate_cons_cons]
    · rw [splitSlashes_cons hc hs, hs, List.map_cons, List.map_cons, ← String.intercalate_cons_append]
      simp

theorem text_eq_intercalate (p : Path) : p.text = "/".intercalate p.segments := by
  rw [segments, intercalate_splitSlashes, String.ofList_toList]

/-- A path is told by its segments. -/
theorem eq_of_segments {p q : Path} (h : p.segments = q.segments) : p = q := by
  have htext : p.text = q.text := by rw [text_eq_intercalate p, text_eq_intercalate q, h]
  cases p
  cases q
  exact congrArg mk htext

/-- An absolute path starts with an empty segment, and has more. -/
theorem exists_segments_of_isAbsolute {p : Path} (h : p.isAbsolute = true) :
    ∃ rest, rest ≠ [] ∧ p.segments = "" :: rest := by
  have hhead : p.text.toList.head? = some '/' := by simpa [isAbsolute] using h
  obtain ⟨cs, hcs⟩ : ∃ cs, p.text.toList = '/' :: cs := by
    cases htext : p.text.toList with
    | nil => rw [htext] at hhead; cases hhead
    | cons c cs =>
      rw [htext] at hhead
      cases hhead
      exact ⟨cs, rfl⟩
  refine ⟨(splitSlashes cs).map String.ofList, by simpa using splitSlashes_ne_nil cs, ?_⟩
  rw [segments, hcs, splitSlashes, if_pos rfl]
  rfl

/-- The segments of a path that a location is put after: all of them, but a slash at the end stays one. -/
def front (p : Path) : List String :=
  if p.text.isEmpty then []
  else if p.text.toList.getLast? == some '/' then p.segments.dropLast
  else p.segments

theorem segments_append_of_slash {p : Path} (h : p.text.toList.getLast? = some '/') (q : String) :
    segments ⟨p.text ++ q⟩ = p.segments.dropLast ++ segments ⟨q⟩ := by
  obtain ⟨cs, hcs⟩ := List.getLast?_eq_some_iff.1 h
  have hp : p.text = String.ofList cs ++ "/" ++ "" := by
    rw [← String.toList_inj, hcs]
    simp
  have hsegments : p.segments = segments ⟨String.ofList cs⟩ ++ [""] := by
    rw [← segments_of_not_mem (s := "") (by simp), ← segments_append, ← hp]
  rw [hsegments, List.dropLast_concat, ← segments_append]
  congr 2
  rw [hp, String.append_empty]

/-- After a slash at the end there is an empty segment. -/
theorem segments_of_slash {p : Path} (h : p.text.toList.getLast? = some '/') :
    p.segments = p.segments.dropLast ++ [""] := by
  have hsegments := segments_append_of_slash h ""
  rwa [String.append_empty, segments_of_not_mem (s := "") (by simp)] at hsegments

def IsSegment (s : String) : Prop := s ≠ "" ∧ '/' ∉ s.toList

instance (s : String) : Decidable (IsSegment s) := inferInstanceAs (Decidable (s ≠ "" ∧ '/' ∉ s.toList))

theorem isAbsolute_intercalate {l : Location} (h : ∀ n ∈ l, IsSegment n) : isAbsolute ⟨"/".intercalate l⟩ = false := by
  cases l with
  | nil => rfl
  | cons n l =>
    rw [Bool.eq_false_iff]
    intro habsolute
    obtain ⟨rest, -, hsegments⟩ := exists_segments_of_isAbsolute habsolute
    rw [segments_intercalate (by simp) fun s hs => (h s hs).2] at hsegments
    exact (h n (by simp)).1 (List.cons.inj hsegments).1

theorem segments_below (p : Path) {l : Location} (hne : l ≠ []) (h : ∀ n ∈ l, IsSegment n) :
    (p.below l).segments = p.front ++ l := by
  have hl := segments_intercalate hne fun s hs => (h s hs).2
  rw [below, join, isAbsolute_intercalate h, Bool.false_or, front]
  split
  · exact hl
  · split
    · next hslash => rw [segments_append_of_slash (by simpa using hslash), hl]
    · rw [segments_append, hl]

theorem isAbsolute_below (p : Path) {l : Location} (h : ∀ n ∈ l, IsSegment n) :
    (p.below l).isAbsolute = p.isAbsolute := by
  rw [below, join, isAbsolute_intercalate h, Bool.false_or]
  split
  · next hempty =>
    rw [isAbsolute_intercalate h]
    have htext : p.text = "" := by simpa using hempty
    simp [isAbsolute, htext]
  · next hempty =>
    have htext : p.text.toList ≠ [] := by simpa using hempty
    obtain ⟨c, cs, hcs⟩ := List.exists_cons_of_ne_nil htext
    split <;> simp [isAbsolute, hcs]

section Last

/-! A path whose last segment is a name: that segment is what counts. -/

variable {p : Path} {init : List String} {n : String}

/-- The segments before the last one, without the empty one that makes a path absolute. -/
def relative (p : Path) (init : List String) : List String := if p.isAbsolute then init.drop 1 else init

theorem exists_significant (h : p.segments = init ++ [n]) (hn : counts n = true) :
    ∃ before, p.significant = (n, true) :: before ∧ before.map Prod.fst = (p.relative init).reverse := by
  have hname : (n != "") = true := by
    rw [counts, Bool.and_eq_true] at hn
    exact hn.1
  have hfst : ∀ ss : List String, (ss.map fun s => (s, counts s)).map Prod.fst = ss := by
    intro ss
    simp [Function.comp_def]
  unfold significant relative
  cases hp : p.isAbsolute with
  | true =>
    obtain ⟨rest, hrest, hsegments⟩ := exists_segments_of_isAbsolute hp
    have hinit : init ≠ [] := by
      rintro rfl
      rw [hsegments] at h
      exact hrest (List.cons.inj h).2
    refine ⟨((init.drop 1).map fun s => (s, counts s)).reverse, ?_, ?_⟩
    · rw [h, List.drop_append_of_le_length (List.length_pos_iff.2 hinit)]
      simp [hn]
    · rw [if_pos rfl, List.map_reverse, hfst]
  | false =>
    rw [h]
    cases init with
    | nil => exact ⟨[], by simp [marked, hname], rfl⟩
    | cons s init =>
      refine ⟨((s, s != "") :: init.map fun s => (s, counts s)).reverse, by simp [marked, hn], ?_⟩
      rw [if_neg (by simp), List.map_reverse, List.map_cons, hfst]

theorem fileName?_of_segments (h : p.segments = init ++ [n]) (hn : n ≠ "" ∧ n ≠ "." ∧ n ≠ "..") :
    p.fileName? = some n := by
  obtain ⟨before, hsignificant, -⟩ := exists_significant h (by simp [counts, hn])
  rw [fileName?, hsignificant]
  simp [hn]

theorem segments_rebuild (h : p.segments = init ++ [n]) {m : String} (hm : '/' ∉ m.toList) :
    (p.rebuild (m :: (p.relative init).reverse)).segments = init ++ [m] := by
  have hinit : ∀ s ∈ init, '/' ∉ s.toList := by
    intro s hs
    exact not_mem_of_mem_segments (p := p) (by rw [h]; simp [hs])
  rw [rebuild, relative, List.reverse_cons, List.reverse_reverse]
  cases hp : p.isAbsolute with
  | true =>
    obtain ⟨rest, hrest, hsegments⟩ := exists_segments_of_isAbsolute hp
    obtain ⟨init', rfl⟩ : ∃ init', init = "" :: init' := by
      rw [hsegments] at h
      cases init with
      | nil => exact absurd (List.cons.inj h).2 hrest
      | cons s init' =>
        obtain ⟨rfl, -⟩ := List.cons.inj h
        exact ⟨init', rfl⟩
    have hslash := segments_append "" ("/".intercalate (init' ++ [m]))
    rw [String.empty_append] at hslash
    simp only [if_true, List.drop_one, List.tail_cons]
    rw [hslash, segments_intercalate (by simp) ?_]
    · rfl
    · simpa [or_imp, forall_and, hm] using hinit
  | false =>
    simp only [Bool.false_eq_true, if_false, String.empty_append]
    refine segments_intercalate (by simp) ?_
    simpa [or_imp, forall_and, hm] using hinit

theorem segments_withExtension (h : p.segments = init ++ [n]) (hn : n ≠ "" ∧ n ≠ "." ∧ n ≠ "..") {extension : String}
    (he : '/' ∉ (changeExtension n extension).toList) :
    (p.withExtension extension).segments = init ++ [changeExtension n extension] := by
  obtain ⟨before, hsignificant, hbefore⟩ := exists_significant h (by simp [counts, hn])
  rw [withExtension, fileName?_of_segments h hn, hsignificant]
  simp only [hbefore]
  exact segments_rebuild h he

end Last

/-- Below a path, another extension changes the last name of a location. -/
theorem withExtension_below (p : Path) {d : Location} {n extension : String} (hd : ∀ m ∈ d, IsSegment m)
    (hn : IsSegment n) (hdots : n ≠ "." ∧ n ≠ "..") (he : IsSegment (changeExtension n extension)) :
    (p.below (d ++ [n])).withExtension extension = p.below (d ++ [changeExtension n extension]) := by
  apply eq_of_segments
  have hbelow := p.segments_below (l := d ++ [n]) (by simp) (by simpa [or_imp, forall_and, hn] using hd)
  rw [← List.append_assoc] at hbelow
  rw [segments_withExtension hbelow ⟨hn.1, hdots⟩ he.2, segments_below p (by simp), List.append_assoc]
  simpa [or_imp, forall_and, he] using hd

/-- A name is cut at the last dot. -/
theorem splitName_append {stem extension : String} (hstem : stem ≠ "") (he : '.' ∉ extension.toList) :
    splitName (stem ++ "." ++ extension) = (stem, some extension) := by
  have hreverse : (stem ++ "." ++ extension).toList.reverse =
      extension.toList.reverse ++ '.' :: stem.toList.reverse := by simp
  have htake : (extension.toList.reverse ++ '.' :: stem.toList.reverse).takeWhile (· != '.') =
      extension.toList.reverse := by
    rw [List.takeWhile_append_of_pos]
    · simp
    · intro c hc
      have hne : c ≠ '.' := by
        rintro rfl
        exact he (by simpa using hc)
      simpa using hne
  unfold splitName
  simp only [hreverse, htake, List.drop_left]
  have hne : stem.toList.reverse.isEmpty = false := by simpa using hstem
  simp [hstem]

theorem exists_stem_of_splitName {name stem extension : String} (h : splitName name = (stem, some extension)) :
    stem ≠ "" ∧ '.' ∉ extension.toList ∧ name = stem ++ "." ++ extension := by
  have hsplit := List.takeWhile_append_dropWhile (p := (· != '.')) (l := name.toList.reverse)
  generalize hfront : name.toList.reverse.takeWhile (· != '.') = front at hsplit
  have hdots : '.' ∉ front := by
    intro hmem
    rw [← hfront] at hmem
    simpa using List.all_eq_true.1 List.all_takeWhile _ hmem
  unfold splitName at h
  simp only [hfront] at h
  cases hrest : name.toList.reverse.dropWhile (· != '.') with
  | nil =>
    rw [hrest, List.append_nil] at hsplit
    rw [← hsplit] at h
    simp at h
  | cons c cs =>
    have hc : c = '.' := by
      have hhead := List.head?_dropWhile_not (· != '.') name.toList.reverse
      rw [hrest] at hhead
      simpa using hhead
    rw [hrest, hc] at hsplit
    rw [← hsplit, List.drop_left] at h
    simp only at h
    split at h
    · cases h
    · next hne =>
      cases h
      refine ⟨?_, by simpa using hdots, ?_⟩
      · intro hempty
        rw [← String.toList_inj] at hempty
        simp at hempty
        simp [hempty] at hne
      · rw [← String.toList_inj, ← List.reverse_inj, ← hsplit]
        simp

end ChainCompiler.Path

namespace ChainCompiler

open ChainCompiler.Path

/-- The name of a source is a stem with the extension. -/
theorem isSourceName_iff {name : String} : isSourceName name = true ↔ ∃ stem, stem ≠ "" ∧ name = stem ++ ".chain" := by
  have hdot : ∀ stem : String, stem ++ ".chain" = stem ++ "." ++ "chain" := by
    intro stem
    rw [String.append_assoc]
    rfl
  rw [isSourceName, beq_iff_eq, extension?]
  constructor
  · intro h
    rcases hsplit : splitName name with ⟨stem, _ | extension⟩
    · rw [hsplit] at h
      cases h
    · rw [hsplit] at h
      cases h
      obtain ⟨hstem, -, hname⟩ := exists_stem_of_splitName hsplit
      exact ⟨stem, hstem, by rw [hname, hdot]; rfl⟩
  · rintro ⟨stem, hstem, rfl⟩
    rw [hdot, splitName_append hstem (by decide)]
    rfl

/-- The name of a module in place of the name of its source. -/
theorem changeExtension_source {stem : String} (hstem : stem ≠ "") :
    changeExtension (stem ++ ".chain") "js" = if stem = "." then ".." else stem ++ ".js" := by
  have hsplit : splitName (stem ++ ".chain") = (stem, some "chain") := by
    rw [← splitName_append hstem (by decide), String.append_assoc]
    rfl
  have hjs : stem ++ "." ++ "js" = stem ++ ".js" := by
    rw [String.append_assoc]
    rfl
  rw [changeExtension, hsplit, ← hjs]

end ChainCompiler
