import ChainCompiler.Proofs.Command.Emission
import Mathlib.Data.List.Induction

/-! Finding the sources of a project. Only the entries of one directory are sorted at a time, by their names. Still the
paths of all sources come out in order, since what is below one name comes before what is below a later one. Directories
are opened by their paths, and one whose path the system refuses ends the search. -/

namespace ChainCompiler

namespace Path

/-- What a path consists of when it is compared with another one. -/
inductive Component where
  | root
  | here
  | above
  | name (n : String)
  deriving DecidableEq

namespace Component

def ofSegment (s : String) : Component := if s = "." then .here else if s = ".." then .above else .name s

def rank : Component → Nat
  | .root => 0
  | .here => 1
  | .above => 2
  | .name _ => 3

def text : Component → String
  | .name n => n
  | _ => ""

/-- The root comes first, then the dots, then names in the order of their texts. -/
def Before (a b : Component) : Prop := a.rank < b.rank ∨ a.rank = b.rank ∧ a.text < b.text

instance : DecidableRel Before := fun a b => inferInstanceAs (Decidable (a.rank < b.rank ∨ _))

theorem before_irrefl (a : Component) : ¬ a.Before a := by
  simp [Before]

end Component

def counted (ms : List (String × Bool)) : List Component := (ms.filter (·.2)).map fun x => .ofSegment x.1

def components (p : Path) : List Component :=
  (if p.isAbsolute then [.root] else []) ++ counted p.significant.reverse

def Before (p q : Path) : Prop := List.Lex Component.Before p.components q.components

instance : DecidableRel Before := fun p q => inferInstanceAs (Decidable (List.Lex _ p.components q.components))

example : Before ⟨"chains/a/z.chain"⟩ ⟨"chains//a.chain"⟩ ∧ Before ⟨"./b"⟩ ⟨"a"⟩ ∧ ¬ Before ⟨"a/./b"⟩ ⟨"a/b"⟩ := by
  decide +kernel

theorem Before.ne {p q : Path} (h : p.Before q) : p ≠ q := by
  rintro rfl
  exact List.lex_irrefl Component.before_irrefl p.components h

def marks (absolute : Bool) (ss : List String) : List (String × Bool) :=
  if absolute then (ss.drop 1).map fun s => (s, counts s) else marked ss

theorem marks_append {absolute : Bool} {ss : List String} (hss : ss ≠ []) (l : List String) :
    marks absolute (ss ++ l) = marks absolute ss ++ l.map fun s => (s, counts s) := by
  obtain ⟨s, ss, rfl⟩ := List.exists_cons_of_ne_nil hss
  cases absolute with
  | true => simp [marks]
  | false => simp [marks, marked]

theorem counted_append (ms ms' : List (String × Bool)) : counted (ms ++ ms') = counted ms ++ counted ms' := by
  simp [counted]

/-- Segments at the end that do not count make no difference. -/
theorem counted_significant (p : Path) : counted p.significant.reverse = counted (marks p.isAbsolute p.segments) := by
  have htrim : ∀ ms : List (String × Bool), counted (ms.reverse.dropWhile (!·.2)).reverse = counted ms := by
    intro ms
    induction ms using List.reverseRecOn with
    | nil => rfl
    | append_singleton ms x ih =>
      rw [List.reverse_concat, List.dropWhile_cons]
      split
      · next hx =>
        have hnone : counted [x] = [] := by
          have hx' : x.2 = false := by simpa using hx
          simp [counted, hx']
        rw [ih, counted_append, hnone, List.append_nil]
      · rw [List.reverse_cons, List.reverse_reverse]
  exact htrim _

theorem counted_cons {n : String} (hn : n ≠ "." ∧ n ≠ "..") (ms : List (String × Bool)) :
    counted ((n, true) :: ms) = .name n :: counted ms := by
  have hname : Component.ofSegment n = .name n := by rw [Component.ofSegment, if_neg hn.1, if_neg hn.2]
  rw [counted, List.filter_cons_of_pos rfl, List.map_cons, hname]
  rfl

theorem counted_names {l : Location} (h : IsNames l) :
    counted (l.map fun s => (s, counts s)) = l.map .name := by
  induction l with
  | nil => rfl
  | cons n l ih =>
    obtain ⟨⟨hn, hdots⟩, hl⟩ := List.forall_mem_cons.1 h
    have hcounts : counts n = true := by simp [counts, hn.1, hdots.1]
    rw [List.map_cons, hcounts, counted_cons hdots, ih hl, List.map_cons]

/-- A relative path can start with a name. -/
theorem counted_marks_names {l : Location} (h : IsNames l) : counted (marks false l) = l.map .name := by
  cases l with
  | nil => rfl
  | cons n l =>
    obtain ⟨⟨hn, hdots⟩, hl⟩ := List.forall_mem_cons.1 h
    have hfirst : (n != "") = true := by simpa using hn.1
    rw [marks, if_neg (by simp), marked, hfirst, counted_cons hdots, counted_names hl, List.map_cons]

/-- A slash at the end adds no component. -/
theorem counted_marks_dropLast {p : Path} (hne : p.text.isEmpty = false) (h : p.text.toList.getLast? = some '/') :
    p.segments.dropLast ≠ [] ∧
      counted (marks p.isAbsolute p.segments) = counted (marks p.isAbsolute p.segments.dropLast) := by
  have hslash := segments_of_slash h
  have hfront : p.segments.dropLast ≠ [] := by
    intro hnil
    rw [hnil, List.nil_append] at hslash
    have htext := text_eq_intercalate p
    rw [hslash, String.intercalate_singleton] at htext
    simp [htext] at hne
  refine ⟨hfront, ?_⟩
  rw [hslash, marks_append hfront, counted_append, List.dropLast_concat]
  exact List.append_nil _

theorem components_below (p : Path) {l : Location} (hne : l ≠ []) (h : IsNames l) :
    (p.below l).components = p.components ++ l.map .name := by
  have hsegments : ∀ n ∈ l, IsSegment n := fun n hn => (h n hn).1
  rw [components, components, counted_significant, counted_significant, isAbsolute_below p hsegments,
    segments_below p hne hsegments, front, List.append_assoc]
  congr 1
  -- the path is empty, has a slash at its end, or gets one
  split
  · next hempty =>
    obtain rfl : p = ⟨""⟩ := by
      cases p
      simpa using hempty
    exact counted_marks_names h
  · next hempty =>
    split
    · next hslash =>
      obtain ⟨hfront, hcounted⟩ := counted_marks_dropLast (by simpa using hempty) (beq_iff_eq.1 hslash)
      rw [hcounted, marks_append hfront, counted_append, counted_names h]
    · rw [marks_append p.segments_ne_nil, counted_append, counted_names h]

theorem before_below (p : Path) {l l' : Location} (hne : l ≠ []) (h : IsNames l) (h' : IsNames l')
    (hlt : l < l') : (p.below l).Before (p.below l') := by
  have hlex : List.Lex Component.Before (l.map .name) (l'.map .name) := by
    clear hne h h'
    induction hlt with
    | nil => exact .nil
    | rel hlt => exact .rel (.inr ⟨rfl, hlt⟩)
    | cons _ ih => exact .cons ih
  have hne' : l' ≠ [] := by
    rintro rfl
    cases hlt
  rw [Before, components_below p hne h, components_below p hne' h']
  exact hlex.append_left _ _

end Path

namespace Command

/-- The locations found below a directory are those of its sources, and their paths are in order. -/
structure Discovered (e : Entry) (directory : Path) (ls : List Location) : Prop where
  found : ∀ l, l ∈ ls ↔ ∃ d stem bytes, l = d ++ [stem ++ ".chain"] ∧ SourceAt e d stem bytes
  ordered : (ls.map directory.below).Pairwise Path.Before
  nodup : (ls.map directory.below).Nodup

theorem pairwise_below {e : Entry} (hwf : e.WellFormed) (directory : Path) {ls : List Location}
    (hfound : ∀ l ∈ ls, l ≠ [] ∧ ∃ x, e.get? l = some x) (h : ls.Pairwise (· < ·)) :
    (ls.map directory.below).Pairwise Path.Before := by
  rw [List.pairwise_map]
  refine h.imp_of_mem fun {l l'} hl hl' hlt => ?_
  obtain ⟨hne, x, hx⟩ := hfound l hl
  obtain ⟨-, x', hx'⟩ := hfound l' hl'
  exact directory.before_below hne (hwf.names hx) (hwf.names hx') hlt

/-- A directory below an entry that the system does not open by its path from the given directory. -/
structure Unopenable (e : Entry) (directory : Path) (d : Location) (x : SystemError) : Prop where
  ne_nil : d ≠ []
  exists_directory : ∃ es, e.get? d = some (.directory es)
  refused : Files.checkPath (directory.below d) = .error x

theorem Unopenable.exists_mem {e : Entry} (hwf : e.WellFormed) {directory : Path} {d : Location} {x : SystemError}
    (h : Unopenable e directory d x) : ∃ es, (d, Entry.directory es) ∈ e.descendants := by
  obtain ⟨es, hes⟩ := h.exists_directory
  exact ⟨es, (Entry.mem_descendants_iff hwf).2 ⟨h.ne_nil, hes⟩⟩

theorem unopenable_of_mem {e : Entry} (hwf : e.WellFormed) {directory : Path} {y : Location × Entry} {x : SystemError}
    (hy : y ∈ e.descendants) (hdirectory : y.2.isDirectory = true)
    (h : Files.checkPath (directory.below y.1) = .error x) : Unopenable e directory y.1 x := by
  obtain ⟨d, entry⟩ := y
  obtain ⟨hne, hget⟩ := (Entry.mem_descendants_iff hwf).1 hy
  cases entry with
  | file bytes => cases hdirectory
  | directory es => exact ⟨hne, ⟨es, hget⟩, h⟩

theorem discovered_sourcesAmong {es : List (String × Entry)} (hwf : Entry.WellFormed (.directory es))
    (directory : Path) :
    Discovered (.directory es) directory (sourcesAmong (Entry.directory es).descendants) := by
  have hordered : ((sourcesAmong (Entry.directory es).descendants).map directory.below).Pairwise Path.Before := by
    refine pairwise_below hwf directory (fun l hl => ?_) (pairwise_sourcesAmong (Entry.pairwise_descendants _ hwf))
    obtain ⟨d, stem, bytes, rfl, -, hfile⟩ := (mem_sourcesAmong_iff_sourceAt hwf rfl).1 hl
    exact ⟨by simp, _, hfile⟩
  exact ⟨fun l => mem_sourcesAmong_iff_sourceAt hwf rfl, hordered, hordered.imp Path.Before.ne⟩

/-- The directory that a search stops at comes before all others that cannot be opened. -/
theorem unopenable_of_unopened {e : Entry} (hwf : e.WellFormed) {directory : Path} {d : Location} {x : SystemError}
    (h : Files.Unopened directory e.descendants d x) :
    Unopenable e directory d x ∧
      ∀ d' x', Unopenable e directory d' x' → d' = d ∨ (directory.below d).Before (directory.below d') := by
  obtain ⟨front, es, back, hdescendants, hopen, hx⟩ := h
  have hmem : (d, Entry.directory es) ∈ e.descendants := by simp [hdescendants]
  have hd : Unopenable e directory d x := unopenable_of_mem hwf hmem rfl hx
  refine ⟨hd, fun d' x' hd' => ?_⟩
  obtain ⟨es', hmem'⟩ := hd'.exists_mem hwf
  have hordered := Entry.pairwise_descendants e hwf
  rw [hdescendants] at hmem' hordered
  rcases List.mem_append.1 hmem' with hfront | hback
  · exact absurd hd'.refused (hopen.ne_error hfront rfl x')
  · rcases List.mem_cons.1 hback with heq | hback
    · cases heq
      exact .inl rfl
    · have hlt : d < d' := (List.pairwise_cons.1 (List.pairwise_append.1 hordered).2.1).1 _ hback
      obtain ⟨_, hget⟩ := hd.exists_directory
      obtain ⟨_, hget'⟩ := hd'.exists_directory
      exact .inr (directory.before_below hd.ne_nil (hwf.names hget) (hwf.names hget') hlt)

/-- The sources below a directory are found, at any depth and below directories of any names: all files whose name is a
stem with the extension, and nothing else. Each is found once, and their paths are in strictly increasing order. All
directories have to be opened for that. If some cannot be, the search fails at the one whose path comes first. -/
theorem findSources_discovers {s : Session} {directory : Path} {es : List (String × Entry)}
    (hentry : s.files.entry? directory = some (.directory es)) (hwf : Entry.WellFormed (.directory es)) :
    ((∀ d x, ¬ Unopenable (.directory es) directory d x) →
      ∃ ls, Run.findSources directory s = (.ok ls, s) ∧ Discovered (.directory es) directory ls) ∧
    ((∃ d x, Unopenable (.directory es) directory d x) →
      ∃ d x, Run.findSources directory s = (.error (.unsearchable directory (directory.below d) x), s) ∧
        Unopenable (.directory es) directory d x ∧
        ∀ d' x', Unopenable (.directory es) directory d' x' →
          d' = d ∨ (directory.below d).Before (directory.below d')) := by
  have hsearch := Files.search_of_entry hentry
  rcases Files.collect_cases directory (Entry.directory es).descendants with ⟨hopen, hrun⟩ | ⟨d, x, hd, hrun⟩
  · refine ⟨fun _ => ⟨_, Run.findSources_of_ok (hsearch.trans hrun), discovered_sourcesAmong hwf directory⟩, ?_⟩
    rintro ⟨d, x, hd⟩
    obtain ⟨es', hmem⟩ := hd.exists_mem hwf
    exact absurd hd.refused (hopen.ne_error hmem rfl x)
  · obtain ⟨hunopenable, hfirst⟩ := unopenable_of_unopened hwf hd
    exact ⟨fun hall => absurd hunopenable (hall d x),
      fun _ => ⟨d, x, Run.findSources_of_error (hsearch.trans hrun), hunopenable, hfirst⟩⟩

def flat (names : List String) : Entry := .directory (names.map fun n => (n, .file "".toUTF8))

theorem wellFormed_flat {names : List String} (hnodup : names.Nodup)
    (hnames : ∀ n ∈ names, Path.IsSegment n ∧ n ≠ "." ∧ n ≠ "..") : (flat names).WellFormed := by
  refine Entry.wellFormed_directory ?_ ?_ ?_
  · simpa [Function.comp_def] using hnodup
  · simpa [Function.comp_def] using hnames
  · intro x hx
    obtain ⟨n, -, rfl⟩ := List.mem_map.1 hx
    exact Entry.wellFormed_file _

theorem get?_flat_ne_directory (names : List String) (n : String) (d : Location) (es : List (String × Entry)) :
    (flat names).get? (n :: d) ≠ some (.directory es) := by
  intro hd
  rw [Entry.get?_cons, Option.bind_eq_some_iff] at hd
  obtain ⟨child, hchild, hd⟩ := hd
  obtain ⟨_, _, hnames, -⟩ := List.lookup_eq_some_iff.1 hchild
  have hmem : (n, child) ∈ (flat names).entries := by simp [hnames]
  obtain ⟨_, -, hfile⟩ := List.mem_map.1 hmem
  cases hfile
  cases d <;> cases hd

/-- A directory beside a source of the same stem, a directory named like a source, a name that is only an extension, and
one that has a dot as its stem. -/
def mixedEntries : List (String × Entry) :=
  [("x.chain", flat ["y.chain"]), (".chain", .file "".toUTF8), ("a.chain", .file "".toUTF8),
    ("..chain", .file "".toUTF8), ("a", flat ["z.chain", "notes.txt"])]

theorem wellFormed_mixedEntries : Entry.WellFormed (.directory mixedEntries) := by
  refine Entry.wellFormed_directory (by decide) (by decide +kernel) ?_
  rw [mixedEntries]
  simp only [List.forall_mem_cons]
  refine ⟨wellFormed_flat (by decide) (by decide +kernel), Entry.wellFormed_file _, Entry.wellFormed_file _,
    Entry.wellFormed_file _, wellFormed_flat (by decide) (by decide +kernel), ?_⟩
  simp

theorem not_unopenable_mixedEntries (d : Location) (x : SystemError) :
    ¬ Unopenable (.directory mixedEntries) ⟨"chains"⟩ d x := by
  have hopen : Files.checkPath (Path.below ⟨"chains"⟩ ["x.chain"]) = .ok () ∧
      Files.checkPath (Path.below ⟨"chains"⟩ ["a"]) = .ok () := by decide +kernel
  rintro ⟨hne, ⟨es, hes⟩, hx⟩
  cases d with
  | nil => exact hne rfl
  | cons n d =>
    obtain ⟨child, hmem, hd⟩ := wellFormed_mixedEntries.get?_cons_iff.1 hes
    simp only [Entry.entries, mixedEntries, List.mem_cons, Prod.mk.injEq, List.not_mem_nil, or_false] at hmem
    rcases hmem with ⟨rfl, rfl⟩ | ⟨rfl, rfl⟩ | ⟨rfl, rfl⟩ | ⟨rfl, rfl⟩ | ⟨rfl, rfl⟩
    · cases d with
      | nil => cases hopen.1.symm.trans hx
      | cons m d => exact get?_flat_ne_directory _ _ _ _ hd
    · cases d <;> cases hd
    · cases d <;> cases hd
    · cases d <;> cases hd
    · cases d with
      | nil => cases hopen.2.symm.trans hx
      | cons m d => exact get?_flat_ne_directory _ _ _ _ hd

def mixedSession : Session := ⟨⟨.directory [("chains", .directory mixedEntries)], []⟩, ""⟩

/-- A path to the sources directory that first goes there and back, again and again. -/
def detour : Nat → String
  | 0 => "chains"
  | n + 1 => "chains/../" ++ detour n

theorem utf8ByteSize_detour (n : Nat) : (detour n).utf8ByteSize = 10 * n + 6 := by
  induction n with
  | zero => rfl
  | succ n ih =>
    have hthere : "chains/../".utf8ByteSize = 10 := rfl
    rw [detour, String.utf8ByteSize_append, ih, hthere]
    omega

theorem isEmpty_detour (n : Nat) : (detour n).isEmpty = false := by
  rw [Bool.eq_false_iff, ne_eq, String.isEmpty_iff_utf8ByteSize_eq_zero, utf8ByteSize_detour]
  omega

theorem not_mem_toList_detour (n : Nat) : '\x00' ∉ (detour n).toList := by
  induction n with
  | zero => decide
  | succ n ih => simp [detour, ih]

theorem segments_detour (n : Nat) :
    Path.segments ⟨detour (n + 1)⟩ = "chains" :: ".." :: Path.segments ⟨detour n⟩ := by
  have hback : detour (n + 1) = "chains" ++ "/" ++ (".." ++ "/" ++ detour n) := by
    rw [← String.toList_inj]
    simp [detour]
  rw [hback, Path.segments_append, Path.segments_append, Path.segments_of_not_mem (by decide),
    Path.segments_of_not_mem (by decide)]
  rfl

/-- Each detour ends where it started. -/
theorem leads_detour {f : Files} (hroot : f.node? [] = some none) (hchains : f.node? ["chains"] = some none) (n : Nat) :
    Files.Leads f [] (Path.segments ⟨detour n⟩) ["chains"] := by
  have hdown : Files.Step f [] "chains" ["chains"] :=
    .down hroot ⟨by decide, by decide, by decide, by decide⟩ (by rw [List.nil_append, hchains]; rfl)
  induction n with
  | zero =>
    rw [detour, Path.segments_of_not_mem (by decide)]
    exact Files.leads_singleton.2 hdown
  | succ n ih =>
    rw [segments_detour]
    exact .cons hdown (.cons (.up hchains) ih)

/-- As long as the system takes a detour, it leads to the sources directory. -/
theorem reaches_detour {f : Files} (hhome : f.home = []) (hroot : f.node? [] = some none)
    (hchains : f.node? ["chains"] = some none) {n : Nat} (hn : 10 * n + 6 ≤ Files.pathLimit) :
    f.Reaches ⟨detour n⟩ ["chains"] := by
  have hsize := utf8ByteSize_detour n
  constructor
  · have hnul : (detour n).toList.contains '\x00' = false := by simpa using not_mem_toList_detour n
    rw [Files.checkPath, hnul, isEmpty_detour, if_neg (by simp), if_neg (by simp),
      if_neg (not_lt.2 (hsize.trans_le hn))]
  · have hstart : f.start ⟨detour n⟩ = [] := by
      unfold Files.start
      split
      · rfl
      · exact hhome
    rw [hstart, List.nil_append]
    exact leads_detour hroot hchains n

/-- Some detours can be taken, but do not lead one name further. -/
theorem checkPath_below_detour {n : Nat} {name : String} (hname : Path.IsSegment name)
    (h : Files.pathLimit < 10 * n + 6 + name.utf8ByteSize) :
    ∃ e, Files.checkPath (Path.below ⟨detour n⟩ [name]) = .error e := by
  have hsize := utf8ByteSize_detour n
  have hlong : Files.pathLimit < (Path.below ⟨detour n⟩ [name]).text.utf8ByteSize := by
    have hrelative : Path.isAbsolute ⟨"/".intercalate [name]⟩ = false :=
      Path.isAbsolute_intercalate (List.forall_mem_singleton.2 hname)
    rw [Path.below, Path.join, hrelative, isEmpty_detour, if_neg (by simp), String.intercalate_singleton]
    split <;> simp only [String.utf8ByteSize_append] <;> omega
  rw [Files.checkPath, if_pos hlong]
  split
  · exact ⟨_, rfl⟩
  · split <;> exact ⟨_, rfl⟩

def detouringEntries : List (String × Entry) := [(String.ofList (List.replicate 60 'd'), flat ["notes.txt"])]

def detouringSession : Session := ⟨⟨.directory [("chains", .directory detouringEntries)], []⟩, ""⟩

theorem entry?_detouringSession :
    detouringSession.files.entry? ⟨detour 406⟩ = some (.directory detouringEntries) := by
  have hreaches : detouringSession.files.Reaches ⟨detour 406⟩ ["chains"] := reaches_detour rfl rfl rfl (by decide)
  exact Files.entry?_eq_some_iff.2 ⟨_, hreaches, rfl⟩

theorem wellFormed_detouringEntries : Entry.WellFormed (.directory detouringEntries) := by
  refine Entry.wellFormed_directory (by decide) (by decide +kernel) ?_
  exact List.forall_mem_singleton.2 (wellFormed_flat (by decide) (by decide +kernel))

theorem unopenable_detouringEntries :
    ∃ x, Unopenable (.directory detouringEntries) ⟨detour 406⟩ [String.ofList (List.replicate 60 'd')] x := by
  obtain ⟨x, hx⟩ : ∃ x, Files.checkPath (Path.below ⟨detour 406⟩ [String.ofList (List.replicate 60 'd')]) = .error x :=
    checkPath_below_detour (by decide +kernel) (by decide +kernel)
  have hget : (Entry.directory detouringEntries).get? [String.ofList (List.replicate 60 'd')] =
      some (flat ["notes.txt"]) :=
    wellFormed_detouringEntries.get?_cons_iff.2 ⟨_, List.mem_singleton.2 rfl, rfl⟩
  exact ⟨x, by simp, ⟨_, hget⟩, hx⟩

/-- One directory whose path is too long is enough for the search to fail, although there is no source below it. -/
theorem not_findSources_detouringSession :
    detouringSession.files.entry? ⟨detour 406⟩ = some (.directory detouringEntries) ∧
      Entry.WellFormed (.directory detouringEntries) ∧
      ¬ ∃ ls, Run.findSources ⟨detour 406⟩ detouringSession = (.ok ls, detouringSession) := by
  refine ⟨entry?_detouringSession, wellFormed_detouringEntries, ?_⟩
  rintro ⟨ls, hrun⟩
  obtain ⟨x, hx⟩ := unopenable_detouringEntries
  obtain ⟨es, hmem⟩ := hx.exists_mem wellFormed_detouringEntries
  obtain ⟨e, hsearch⟩ := Files.search_of_unopened entry?_detouringSession hmem rfl hx.refused
  rw [Run.findSources_of_error hsearch] at hrun
  cases hrun

theorem findSources_discovers_mixedSession :
    (mixedSession.files.entry? ⟨"chains"⟩ = some (.directory mixedEntries) ∧
      Entry.WellFormed (.directory mixedEntries) ∧
      ∃ ls, Run.findSources ⟨"chains"⟩ mixedSession = (.ok ls, mixedSession) ∧
        Discovered (.directory mixedEntries) ⟨"chains"⟩ ls ∧ ["a", "z.chain"] ∈ ls ∧ ["x.chain"] ∉ ls) ∧
    ∃ d x, Run.findSources ⟨detour 406⟩ detouringSession =
        (.error (.unsearchable ⟨detour 406⟩ (Path.below ⟨detour 406⟩ d) x), detouringSession) ∧
      Unopenable (.directory detouringEntries) ⟨detour 406⟩ d x := by
  constructor
  · have hentry : mixedSession.files.entry? ⟨"chains"⟩ = some (.directory mixedEntries) := rfl
    obtain ⟨ls, hrun, hdiscovered⟩ :=
      (findSources_discovers hentry wellFormed_mixedEntries).1 not_unopenable_mixedEntries
    refine ⟨hentry, wellFormed_mixedEntries, ls, hrun, hdiscovered, ?_, fun hmem => ?_⟩
    · exact (hdiscovered.found _).2 ⟨["a"], "z", _, rfl, by decide, rfl⟩
    · obtain ⟨d, stem, bytes, hl, -, hfile⟩ := (hdiscovered.found _).1 hmem
      rw [← hl] at hfile
      cases hfile
  · obtain ⟨x, hx⟩ := unopenable_detouringEntries
    obtain ⟨d, x', hrun, hd, -⟩ :=
      (findSources_discovers entry?_detouringSession wellFormed_detouringEntries).2 ⟨_, x, hx⟩
    exact ⟨d, x', hrun, hd⟩

end Command

end ChainCompiler
