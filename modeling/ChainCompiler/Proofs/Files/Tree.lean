import ChainCompiler.Proofs.Files.Path

/-! Trees of entries. A tree is told by what is at each location: nothing, a directory, or a file with its bytes. A new
file or an empty directory changes that at one location. -/

namespace ChainCompiler

theorem fromUTF8?_toUTF8 (s : String) : String.fromUTF8? s.toUTF8 = some s := by
  unfold String.fromUTF8?
  rw [dif_pos (show s.toUTF8.IsValidUTF8 from s.isValidUTF8)]
  rfl

theorem toUTF8_of_fromUTF8? {bytes : ByteArray} {s : String} (h : String.fromUTF8? bytes = some s) :
    bytes = s.toUTF8 := by
  unfold String.fromUTF8? at h
  split at h
  · cases h
    rfl
  · cases h

@[simp] theorem mapError_ok {ε ε' α : Type} (f : ε → ε') (a : α) : (Except.ok a).mapError f = .ok a := rfl

@[simp] theorem mapError_error {ε ε' α : Type} (f : ε → ε') (e : ε) :
    (Except.error e : Except ε α).mapError f = .error (f e) := rfl

theorem Files.readText_of_read {f : Files} {p : Path} {text : String} (h : f.read p = .ok text.toUTF8) :
    f.readText p = .ok text := by
  rw [readText, h]
  simp only [bind, Except.bind, mapError_ok, fromUTF8?_toUTF8]

namespace Entry

def content : Entry → Option ByteArray
  | .file bytes => some bytes
  | .directory _ => none

/-- What is at a location. -/
def node? (e : Entry) (q : Location) : Option (Option ByteArray) := (e.get? q).map content

theorem get?_cons (e : Entry) (n : String) (q : Location) :
    e.get? (n :: q) = (e.entries.lookup n).bind fun child => child.get? q := by
  rw [get?]

theorem get?_append (e : Entry) (q r : Location) : e.get? (q ++ r) = (e.get? q).bind fun x => x.get? r := by
  induction q generalizing e with
  | nil => simp [get?]
  | cons n q ih =>
    rw [List.cons_append, get?_cons, get?_cons]
    cases e.entries.lookup n with
    | none => rfl
    | some child => exact ih child

theorem get?_singleton (e : Entry) (n : String) : e.get? [n] = e.entries.lookup n := by
  rw [get?_cons]
  cases e.entries.lookup n <;> simp [get?]

theorem node?_cons (e : Entry) (n : String) (q : Location) :
    e.node? (n :: q) = (e.entries.lookup n).bind fun child => child.node? q := by
  rw [node?, get?_cons, Option.map_bind]
  rfl

/-- What holds nothing has nothing below it. -/
theorem node?_of_childless {e : Entry} (h : e.entries = []) (n : String) (q : Location) : e.node? (n :: q) = none := by
  rw [node?_cons, h]
  rfl

theorem entries_of_content_ne {e : Entry} (h : e.content ≠ none) : e.entries = [] := by
  cases e with
  | file bytes => rfl
  | directory es => exact absurd rfl h

theorem node?_eq_directory {e : Entry} {q : Location} (h : e.node? q = some none) :
    ∃ es, e.get? q = some (.directory es) := by
  obtain ⟨x, hx, hcontent⟩ := Option.map_eq_some_iff.1 h
  cases x with
  | file bytes => cases hcontent
  | directory es => exact ⟨es, hx⟩

theorem node?_eq_file {e : Entry} {q : Location} {bytes : ByteArray} (h : e.node? q = some (some bytes)) :
    e.get? q = some (.file bytes) := by
  obtain ⟨x, hx, hcontent⟩ := Option.map_eq_some_iff.1 h
  cases x with
  | file bytes' =>
    cases hcontent
    exact hx
  | directory es => cases hcontent

theorem node?_of_get? {e x : Entry} {q : Location} (h : e.get? q = some x) : e.node? q = some x.content := by
  rw [node?, h]
  rfl

/-- Only directories have something in them. -/
theorem node?_of_isSome_append {e : Entry} {q : Location} {n : String} (h : (e.node? (q ++ [n])).isSome = true) :
    e.node? q = some none := by
  rw [node?, get?_append] at h
  cases hq : e.get? q with
  | none => simp [hq] at h
  | some x =>
    cases x with
    | file bytes => simp [hq, get?_cons, entries] at h
    | directory es => exact node?_of_get? hq

/-- A childless entry in place of what is no directory changes what is at one location. -/
theorem node?_set {e new : Entry} {q : Location} {n : String} (hq : e.node? q = some none)
    (hold : e.node? (q ++ [n]) ≠ some none) (hnew : new.entries = []) (r : Location) :
    (e.set new (q ++ [n])).node? r = if r = q ++ [n] then some new.content else e.node? r := by
  induction q generalizing e r with
  | nil =>
    obtain ⟨es, hes⟩ := node?_eq_directory hq
    cases hes
    have hset : set (.directory es) new [n] = .directory (put n new es) := by
      rw [set]
      cases es.lookup n <;> simp [set]
    rw [List.nil_append, hset]
    cases r with
    | nil => simp [node?, get?, content]
    | cons m r =>
      rw [node?_cons, node?_cons, entries, lookup_put, entries]
      by_cases hm : m = n
      · subst hm
        cases r with
        | nil => simp [node?, get?]
        | cons k r =>
          -- below the entry there is nothing, neither before nor after
          rw [if_pos rfl, if_neg (by simp), Option.bind_some, node?_of_childless hnew]
          cases hchild : es.lookup m with
          | none => rfl
          | some child =>
            have hfile : child.content ≠ none := by
              intro hnone
              apply hold
              rw [List.nil_append, node?, get?_singleton, entries, hchild, ← hnone]
              rfl
            rw [Option.bind_some, node?_of_childless (entries_of_content_ne hfile)]
      · rw [if_neg hm, if_neg (by simp [hm])]
  | cons a q ih =>
    rw [node?_cons, Option.bind_eq_some_iff] at hq
    obtain ⟨child, hchild, hq⟩ := hq
    obtain ⟨es, rfl⟩ : ∃ es, e = .directory es := by
      cases e with
      | file bytes => cases hchild
      | directory es => exact ⟨es, rfl⟩
    have hset : set (.directory es) new (a :: q ++ [n]) = .directory (put a (child.set new (q ++ [n])) es) := by
      rw [entries] at hchild
      rw [List.cons_append, set, hchild]
    have hold' : child.node? (q ++ [n]) ≠ some none := by
      intro hnone
      apply hold
      rw [List.cons_append, node?_cons, hchild, Option.bind_some, hnone]
    rw [hset]
    cases r with
    | nil => simp [node?, get?, content]
    | cons m r =>
      rw [node?_cons, node?_cons, entries, lookup_put, entries]
      by_cases hm : m = a
      · subst hm
        rw [entries] at hchild
        rw [if_pos rfl, hchild, Option.bind_some, Option.bind_some, ih hq hold']
        simp
      · rw [if_neg hm, if_neg (by simp [hm])]

/-- No two entries of a directory have one name, and their names can be segments of a path. -/
def WellFormed (e : Entry) : Prop :=
  ∀ q es, e.get? q = some (.directory es) →
    (es.map Prod.fst).Nodup ∧ ∀ n ∈ es.map Prod.fst, Path.IsSegment n ∧ n ≠ "." ∧ n ≠ ".."

theorem lookup_iff_mem {es : List (String × Entry)} (h : (es.map Prod.fst).Nodup) {n : String} {e : Entry} :
    es.lookup n = some e ↔ (n, e) ∈ es := by
  constructor
  · intro hlookup
    obtain ⟨front, back, rfl, -⟩ := List.lookup_eq_some_iff.1 hlookup
    simp
  · intro hmem
    obtain ⟨front, back, rfl⟩ := List.append_of_mem hmem
    rw [List.lookup_eq_some_iff]
    refine ⟨front, back, rfl, ?_⟩
    intro x hx
    rw [List.map_append, List.map_cons, List.nodup_append] at h
    have hne := h.2.2 x.1 (List.mem_map_of_mem hx) n (by simp)
    simpa using Ne.symm hne

theorem WellFormed.nodup {e : Entry} (h : e.WellFormed) : (e.entries.map Prod.fst).Nodup := by
  cases e with
  | file bytes => exact List.nodup_nil
  | directory es => exact (h [] es rfl).1

/-- An entry below another one is at or below one of those in it. -/
theorem WellFormed.get?_cons_iff {e x : Entry} (h : e.WellFormed) {n : String} {q : Location} :
    e.get? (n :: q) = some x ↔ ∃ child, (n, child) ∈ e.entries ∧ child.get? q = some x := by
  rw [get?_cons, Option.bind_eq_some_iff]
  simp only [lookup_iff_mem h.nodup]

theorem WellFormed.child {e child : Entry} (h : e.WellFormed) {n : String} (hmem : (n, child) ∈ e.entries) :
    child.WellFormed := by
  intro q es hq
  exact h (n :: q) es (h.get?_cons_iff.2 ⟨child, hmem, hq⟩)

theorem wellFormed_file (bytes : ByteArray) : WellFormed (.file bytes) := by
  intro q es hq
  cases q with
  | nil => cases hq
  | cons n q =>
    rw [get?_cons] at hq
    cases hq

theorem wellFormed_directory {es : List (String × Entry)} (hnodup : (es.map Prod.fst).Nodup)
    (hnames : ∀ n ∈ es.map Prod.fst, Path.IsSegment n ∧ n ≠ "." ∧ n ≠ "..") (h : ∀ x ∈ es, x.2.WellFormed) :
    WellFormed (.directory es) := by
  intro q es' hq
  cases q with
  | nil =>
    cases hq
    exact ⟨hnodup, hnames⟩
  | cons n q =>
    rw [get?_cons, entries, Option.bind_eq_some_iff] at hq
    obtain ⟨child, hchild, hq⟩ := hq
    exact h (n, child) ((lookup_iff_mem hnodup).1 hchild) q es' hq

/-- The names on the way to an entry. -/
theorem WellFormed.names {e x : Entry} (h : e.WellFormed) {q : Location} (hq : e.get? q = some x) :
    ∀ n ∈ q, Path.IsSegment n ∧ n ≠ "." ∧ n ≠ ".." := by
  induction q generalizing e with
  | nil => simp
  | cons n q ih =>
    obtain ⟨child, hmem, hq⟩ := h.get?_cons_iff.1 hq
    rw [List.forall_mem_cons]
    refine ⟨?_, ih (h.child hmem) hq⟩
    cases e with
    | file bytes => cases hmem
    | directory es => exact (h [] es rfl).2 n (List.mem_map_of_mem hmem)

end Entry

end ChainCompiler
