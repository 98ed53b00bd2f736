import ChainCompiler.Proofs.Files.Tree
import Mathlib.Data.String.Basic

/-! The entries below a directory. Each is met once, before what is below it and in the order of the locations, although
only the entries of one directory are sorted at a time. A search fails at the first directory that cannot be opened. -/

namespace ChainCompiler

theorem mem_inOrder {α : Type} {xs : List (String × List α)} {a : α} : a ∈ inOrder xs ↔ ∃ x ∈ xs, a ∈ x.2 := by
  simp only [inOrder, List.mem_flatMap, List.mem_mergeSort]

theorem inOrder_of_pairwise {α : Type} {xs : List (String × List α)} (h : xs.Pairwise fun a b => a.1 ≤ b.1) :
    inOrder xs = xs.flatMap (·.2) := by
  rw [inOrder, List.mergeSort_of_pairwise (by simpa using h)]

/-- Blocks of what is below one name each are in order when the names are put in order. -/
theorem pairwise_inOrder {α : Type} {xs : List (String × List (Location × α))} (hnames : (xs.map Prod.fst).Nodup)
    (hordered : ∀ x ∈ xs, x.2.Pairwise fun a b => a.1 < b.1) (hheads : ∀ x ∈ xs, ∀ a ∈ x.2, ∃ r, a.1 = x.1 :: r) :
    (inOrder xs).Pairwise fun a b => a.1 < b.1 := by
  have hsorted : (xs.mergeSort fun a b => a.1 ≤ b.1).Pairwise fun a b => decide (a.1 ≤ b.1) = true := by
    apply List.pairwise_mergeSort
    · intro a b c hab hbc
      rw [decide_eq_true_iff] at hab hbc ⊢
      exact hab.trans hbc
    · intro a b
      simpa using le_total a.1 b.1
  -- sorting is by `≤` only: that the order is strict comes from the names being distinct
  have hdistinct : (xs.mergeSort fun a b => a.1 ≤ b.1).Pairwise fun a b => a.1 ≠ b.1 :=
    List.pairwise_map.1 (((List.mergeSort_perm xs _).map Prod.fst).nodup_iff.2 hnames)
  rw [inOrder, List.pairwise_flatMap]
  refine ⟨fun x hx => hordered x (List.mem_mergeSort.1 hx), (hsorted.and hdistinct).imp_of_mem ?_⟩
  rintro x y hx hy ⟨hle, hne⟩ a ha b hb
  obtain ⟨r, hr⟩ := hheads x (List.mem_mergeSort.1 hx) a ha
  obtain ⟨r', hr'⟩ := hheads y (List.mem_mergeSort.1 hy) b hb
  rw [hr, hr']
  exact .rel (lt_of_le_of_ne (of_decide_eq_true hle) hne)

theorem descendantsByName_eq_map (es : List (String × Entry)) :
    descendantsByName es = es.map fun x => (x.1, x.2.descendantsAt x.1) := by
  induction es with
  | nil => rfl
  | cons x es ih => rw [descendantsByName, ih, List.map_cons]

namespace Entry

theorem descendants_file (bytes : ByteArray) : (file bytes).descendants = [] := by
  rw [descendants, entries, descendantsByName, inOrder_of_pairwise .nil, List.flatMap_nil]

theorem descendantsAt_eq (n : String) (e : Entry) :
    e.descendantsAt n = ([n], e) :: e.descendants.map fun x => (n :: x.1, x.2) := by
  cases e with
  | file bytes => rw [descendantsAt, descendants_file, List.map_nil]
  | directory es => rw [descendantsAt, descendants, entries]

/-- There is nothing to sort where the entries are in order. -/
theorem descendants_of_pairwise {es : List (String × Entry)} (h : es.Pairwise fun a b => a.1 ≤ b.1) :
    (directory es).descendants = es.flatMap fun x => x.2.descendantsAt x.1 := by
  have hsorted : (descendantsByName es).Pairwise fun a b => a.1 ≤ b.1 := by
    rw [descendantsByName_eq_map, List.pairwise_map]
    exact h
  rw [descendants, entries, inOrder_of_pairwise hsorted, descendantsByName_eq_map, List.flatMap_map]

theorem mem_descendants {e : Entry} {x : Location × Entry} :
    x ∈ e.descendants ↔ ∃ n child, (n, child) ∈ e.entries ∧ x ∈ child.descendantsAt n := by
  rw [descendants, mem_inOrder, descendantsByName_eq_map]
  constructor
  · rintro ⟨y, hy, hx⟩
    obtain ⟨z, hz, rfl⟩ := List.mem_map.1 hy
    exact ⟨z.1, z.2, hz, hx⟩
  · rintro ⟨n, child, hmem, hx⟩
    exact ⟨_, List.mem_map_of_mem hmem, hx⟩

theorem mem_descendantsAt {e x : Entry} {n : String} {l : Location} :
    (l, x) ∈ e.descendantsAt n ↔ ∃ r, l = n :: r ∧ (r = [] ∧ x = e ∨ (r, x) ∈ e.descendants) := by
  rw [descendantsAt_eq, List.mem_cons, List.mem_map]
  constructor
  · rintro (h | ⟨y, hy, h⟩)
    · cases h
      exact ⟨[], rfl, .inl ⟨rfl, rfl⟩⟩
    · cases h
      exact ⟨y.1, rfl, .inr hy⟩
  · rintro ⟨r, rfl, ⟨rfl, rfl⟩ | hr⟩
    · exact .inl rfl
    · exact .inr ⟨(r, x), hr, rfl⟩

/-- The entries below one are those at the locations below it. -/
theorem mem_descendants_iff {e x : Entry} (h : e.WellFormed) {l : Location} :
    (l, x) ∈ e.descendants ↔ l ≠ [] ∧ e.get? l = some x := by
  induction l generalizing e with
  | nil =>
    refine ⟨fun hx => ?_, fun hx => absurd rfl hx.1⟩
    obtain ⟨n, child, -, hx⟩ := mem_descendants.1 hx
    obtain ⟨r, hr, -⟩ := mem_descendantsAt.1 hx
    cases hr
  | cons n l ih =>
    rw [mem_descendants, h.get?_cons_iff]
    constructor
    · rintro ⟨m, child, hmem, hx⟩
      obtain ⟨r, hl, hr⟩ := mem_descendantsAt.1 hx
      cases hl
      refine ⟨List.cons_ne_nil _ _, child, hmem, ?_⟩
      rcases hr with ⟨rfl, rfl⟩ | hr
      · rfl
      · exact ((ih (h.child hmem)).1 hr).2
    · rintro ⟨-, child, hmem, hl⟩
      refine ⟨n, child, hmem, mem_descendantsAt.2 ⟨l, rfl, ?_⟩⟩
      cases l with
      | nil => exact .inl ⟨rfl, (Option.some.inj hl).symm⟩
      | cons m l => exact .inr ((ih (h.child hmem)).2 ⟨List.cons_ne_nil _ _, hl⟩)

theorem pairwise_descendantsAt {e : Entry} (h : e.descendants.Pairwise fun a b => a.1 < b.1) (n : String) :
    (e.descendantsAt n).Pairwise fun a b => a.1 < b.1 := by
  rw [descendantsAt_eq, List.pairwise_cons, List.pairwise_map]
  refine ⟨fun x hx => ?_, h.imp fun hlt => .cons hlt⟩
  obtain ⟨⟨l, y⟩, hy, rfl⟩ := List.mem_map.1 hx
  obtain ⟨m, child, -, hl⟩ := mem_descendants.1 hy
  obtain ⟨r, rfl, -⟩ := mem_descendantsAt.1 hl
  exact .cons .nil

end Entry

mutual

/-- The entries below one are in order, by induction on the tree. -/
theorem Entry.pairwise_descendants : ∀ e : Entry, e.WellFormed → e.descendants.Pairwise fun a b => a.1 < b.1
  | .file _, _ => by
    rw [Entry.descendants_file]
    exact List.Pairwise.nil
  | .directory es, h => by
    have hnames : ((descendantsByName es).map Prod.fst).Nodup := by
      rw [descendantsByName_eq_map, List.map_map]
      exact h.nodup
    refine pairwise_inOrder hnames (pairwise_descendantsByName es fun x hx => h.child hx) ?_
    intro x hx a ha
    rw [descendantsByName_eq_map] at hx
    obtain ⟨y, -, rfl⟩ := List.mem_map.1 hx
    obtain ⟨r, hr, -⟩ := Entry.mem_descendantsAt.1 ha
    exact ⟨r, hr⟩

theorem pairwise_descendantsByName : ∀ es : List (String × Entry), (∀ x ∈ es, x.2.WellFormed) →
    ∀ x ∈ descendantsByName es, x.2.Pairwise fun a b => a.1 < b.1
  | [], _ => by simp [descendantsByName]
  | (n, e) :: es, h => by
    rw [List.forall_mem_cons] at h
    rw [descendantsByName, List.forall_mem_cons]
    exact ⟨Entry.pairwise_descendantsAt (Entry.pairwise_descendants e h.1) n, pairwise_descendantsByName es h.2⟩

end

def sourcesAmong (xs : List (Location × Entry)) : List Location :=
  (xs.filter fun x => !x.2.isDirectory && isSource x.1).map Prod.fst

theorem sourcesAmong_file (l : Location) (bytes : ByteArray) (xs : List (Location × Entry)) :
    sourcesAmong ((l, .file bytes) :: xs) = if isSource l then l :: sourcesAmong xs else sourcesAmong xs := by
  rw [sourcesAmong, List.filter_cons]
  cases isSource l <;> rfl

theorem sourcesAmong_directory (l : Location) (es : List (String × Entry)) (xs : List (Location × Entry)) :
    sourcesAmong ((l, .directory es) :: xs) = sourcesAmong xs := rfl

/-- The sources below a directory are the files whose names are those of sources. -/
theorem mem_sourcesAmong {e : Entry} (h : e.WellFormed) (he : e.isDirectory = true) {l : Location} :
    l ∈ sourcesAmong e.descendants ↔ (∃ bytes, e.get? l = some (.file bytes)) ∧ isSource l = true := by
  rw [sourcesAmong, List.mem_map]
  constructor
  · rintro ⟨⟨l, x⟩, hx, rfl⟩
    obtain ⟨hmem, hsource⟩ := List.mem_filter.1 hx
    obtain ⟨-, hget⟩ := (Entry.mem_descendants_iff h).1 hmem
    cases x with
    | file bytes => exact ⟨⟨bytes, hget⟩, by simpa [Entry.isDirectory] using hsource⟩
    | directory es => cases hsource
  · rintro ⟨⟨bytes, hget⟩, hsource⟩
    have hne : l ≠ [] := by
      rintro rfl
      cases hget
      cases he
    refine ⟨(l, .file bytes), List.mem_filter.2 ⟨(Entry.mem_descendants_iff h).2 ⟨hne, hget⟩, ?_⟩, rfl⟩
    simpa [Entry.isDirectory] using hsource

theorem pairwise_sourcesAmong {xs : List (Location × Entry)} (h : xs.Pairwise fun a b => a.1 < b.1) :
    (sourcesAmong xs).Pairwise (· < ·) := by
  rw [sourcesAmong, List.pairwise_map]
  exact h.filter _

namespace Files

def AllOpen (directory : Path) (xs : List (Location × Entry)) : Prop :=
  ∀ x ∈ xs, x.2.isDirectory = true → checkPath (directory.below x.1) = .ok ()

theorem AllOpen.ne_error {directory : Path} {xs : List (Location × Entry)} (h : AllOpen directory xs)
    {x : Location × Entry} (hx : x ∈ xs) (hdirectory : x.2.isDirectory = true) (e : SystemError) :
    checkPath (directory.below x.1) ≠ .error e := by
  intro he
  cases (h x hx hdirectory).symm.trans he

/-- A directory among entries that cannot be opened, the first of them. -/
def Unopened (directory : Path) (xs : List (Location × Entry)) (l : Location) (e : SystemError) : Prop :=
  ∃ front es back, xs = front ++ (l, .directory es) :: back ∧ AllOpen directory front ∧
    checkPath (directory.below l) = .error e

theorem Unopened.cons {directory : Path} {xs : List (Location × Entry)} {x : Location × Entry} {l : Location}
    {e : SystemError} (h : Unopened directory xs l e)
    (hx : x.2.isDirectory = true → checkPath (directory.below x.1) = .ok ()) : Unopened directory (x :: xs) l e := by
  obtain ⟨front, es, back, rfl, hfront, he⟩ := h
  exact ⟨x :: front, es, back, rfl, List.forall_mem_cons.2 ⟨hx, hfront⟩, he⟩

/-- The sources are collected up to the first directory that cannot be opened. -/
theorem collect_cases (directory : Path) (xs : List (Location × Entry)) :
    AllOpen directory xs ∧ collect directory xs = .ok (sourcesAmong xs) ∨
      ∃ l e, Unopened directory xs l e ∧ collect directory xs = .error (.unopened (directory.below l) e) := by
  induction xs with
  | nil => exact .inl ⟨by simp [AllOpen], rfl⟩
  | cons x xs ih =>
    obtain ⟨l, entry⟩ := x
    cases entry with
    | file bytes =>
      have hfile : (Entry.file bytes).isDirectory = true → checkPath (directory.below l) = .ok () := by
        simp [Entry.isDirectory]
      rcases ih with ⟨hopen, hrun⟩ | ⟨l', e, hl', hrun⟩
      · refine .inl ⟨List.forall_mem_cons.2 ⟨hfile, hopen⟩, ?_⟩
        rw [collect, hrun, sourcesAmong_file]
        rfl
      · refine .inr ⟨l', e, hl'.cons hfile, ?_⟩
        rw [collect, hrun]
        rfl
    | directory es =>
      cases hcheck : checkPath (directory.below l) with
      | error e =>
        refine .inr ⟨l, e, ⟨[], es, xs, rfl, by simp [AllOpen], hcheck⟩, ?_⟩
        rw [collect, hcheck]
        rfl
      | ok u =>
        have hrest : collect directory ((l, .directory es) :: xs) = collect directory xs := by
          rw [collect, hcheck]
          rfl
        rw [hrest, sourcesAmong_directory]
        rcases ih with ⟨hopen, hrun⟩ | ⟨l', e, hl', hrun⟩
        · exact .inl ⟨List.forall_mem_cons.2 ⟨fun _ => hcheck, hopen⟩, hrun⟩
        · exact .inr ⟨l', e, hl'.cons fun _ => hcheck, hrun⟩

theorem search_of_entry {f : Files} {directory : Path} {es : List (String × Entry)}
    (h : f.entry? directory = some (.directory es)) :
    f.search directory = collect directory (Entry.directory es).descendants := by
  rw [search, h]

/-- A search fails when there is no directory, or else at the first directory below it that cannot be opened. -/
theorem search_cases (f : Files) (directory : Path) :
    f.isDirectory directory = false ∧ f.search directory = .error .noDirectory ∨
      ∃ es, f.entry? directory = some (.directory es) ∧
        (AllOpen directory (Entry.directory es).descendants ∧
          f.search directory = .ok (sourcesAmong (Entry.directory es).descendants) ∨
        ∃ l e, Unopened directory (Entry.directory es).descendants l e ∧
          f.search directory = .error (.unopened (directory.below l) e)) := by
  unfold search isDirectory
  rcases f.entry? directory with _ | (bytes | es)
  · exact .inl ⟨rfl, rfl⟩
  · exact .inl ⟨rfl, rfl⟩
  · exact .inr ⟨es, rfl, collect_cases directory _⟩

theorem search_eq_ok {f : Files} {directory : Path} {es : List (String × Entry)} {ls : List Location}
    (hentry : f.entry? directory = some (.directory es)) (h : f.search directory = .ok ls) :
    AllOpen directory (Entry.directory es).descendants ∧ sourcesAmong (Entry.directory es).descendants = ls := by
  rw [search_of_entry hentry] at h
  rcases collect_cases directory (Entry.directory es).descendants with ⟨hopen, hrun⟩ | ⟨l, e, -, hrun⟩
  · exact ⟨hopen, Except.ok.inj (hrun.symm.trans h)⟩
  · cases hrun.symm.trans h

theorem search_of_isDirectory {f : Files} {directory : Path} (h : f.isDirectory directory = false) :
    f.search directory = .error .noDirectory := by
  rcases f.search_cases directory with ⟨-, hsearch⟩ | ⟨es, hentry, -⟩
  · exact hsearch
  · rw [isDirectory, hentry] at h
    cases h

theorem search_of_unopened {f : Files} {directory : Path} {es : List (String × Entry)} {x : Location × Entry}
    {e : SystemError} (hentry : f.entry? directory = some (.directory es))
    (hx : x ∈ (Entry.directory es).descendants) (hdirectory : x.2.isDirectory = true)
    (he : checkPath (directory.below x.1) = .error e) : ∃ e', f.search directory = .error e' := by
  cases hsearch : f.search directory with
  | error e' => exact ⟨e', rfl⟩
  | ok ls => exact absurd he ((search_eq_ok hentry hsearch).1.ne_error hx hdirectory e)

theorem sources?_eq_some_iff {f : Files} {directory : Path} {ls : List Location} :
    f.sources? directory = some ls ↔ f.search directory = .ok ls := by
  unfold sources?
  cases f.search directory <;> simp [Except.toOption]

theorem sources?_eq_some {f : Files} {directory : Path} {ls : List Location} (h : f.sources? directory = some ls) :
    ∃ e, f.entry? directory = some e ∧ e.isDirectory = true ∧ sourcesAmong e.descendants = ls := by
  have hsearch := sources?_eq_some_iff.1 h
  rcases f.search_cases directory with ⟨-, herror⟩ | ⟨es, hentry, -⟩
  · cases herror.symm.trans hsearch
  · exact ⟨_, hentry, rfl, (search_eq_ok hentry hsearch).2⟩

theorem sources?_eq_none_iff {f : Files} {directory : Path} :
    f.sources? directory = none ↔ ∃ e, f.search directory = .error e := by
  unfold sources?
  cases f.search directory <;> simp [Except.toOption]

end Files

end ChainCompiler
