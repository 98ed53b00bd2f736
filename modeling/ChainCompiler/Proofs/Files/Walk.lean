import ChainCompiler.Proofs.Files.Tree

/-! Where paths lead. A path is followed by steps from location to location, which look only at what is at a location.
So a path that leads somewhere still does when entries are added. -/

namespace ChainCompiler

namespace Files

abbrev node? (f : Files) (q : Location) : Option (Option ByteArray) := f.root.node? q

def IsName (n : String) : Prop := n ≠ "" ∧ n ≠ "." ∧ n ≠ ".." ∧ isTooLong n = false

inductive Step (f : Files) (q : Location) : String → Location → Prop
  | stay {s} : f.node? q = some none → s = "" ∨ s = "." → Step f q s q
  | up : f.node? q = some none → Step f q ".." q.dropLast
  | down {n} : f.node? q = some none → IsName n → (f.node? (q ++ [n])).isSome = true → Step f q n (q ++ [n])

/-- The segments lead from one location to another. -/
inductive Leads (f : Files) : Location → List String → Location → Prop
  | nil {q} : Leads f q [] q
  | cons {q s r ss r'} : Step f q s r → Leads f r ss r' → Leads f q (s :: ss) r'

variable {f g : Files} {p : Path}

theorem Step.directory {q r : Location} {s : String} (h : Step f q s r) : f.node? q = some none := by
  cases h with
  | stay hq _ => exact hq
  | up hq => exact hq
  | down hq _ _ => exact hq

theorem Step.unique {q r r' : Location} {s : String} (h : Step f q s r) (h' : Step f q s r') : r = r' := by
  cases h with
  | stay _ hs =>
    cases h' with
    | stay => rfl
    | up => simp at hs
    | down _ hn =>
      rcases hs with rfl | rfl
      · exact absurd rfl hn.1
      · exact absurd rfl hn.2.1
  | up =>
    cases h' with
    | stay _ hs => simp at hs
    | up => rfl
    | down _ hn => exact absurd rfl hn.2.2.1
  | down _ hn =>
    cases h' with
    | stay _ hs =>
      rcases hs with rfl | rfl
      · exact absurd rfl hn.1
      · exact absurd rfl hn.2.1
    | up => exact absurd rfl hn.2.2.1
    | down => rfl

theorem Leads.unique {q r r' : Location} {ss : List String} (h : Leads f q ss r) (h' : Leads f q ss r') : r = r' := by
  induction h with
  | nil =>
    cases h'
    rfl
  | cons hstep _ ih =>
    cases h' with
    | cons hstep' hrest =>
      cases hstep.unique hstep'
      exact ih hrest

theorem Leads.append {q r r' : Location} {ss ts : List String} (h : Leads f q ss r) (h' : Leads f r ts r') :
    Leads f q (ss ++ ts) r' := by
  induction h with
  | nil => exact h'
  | cons hstep _ ih => exact .cons hstep (ih h')

theorem Leads.split {q r : Location} {ss ts : List String} (h : Leads f q (ss ++ ts) r) :
    ∃ m, Leads f q ss m ∧ Leads f m ts r := by
  induction ss generalizing q with
  | nil => exact ⟨q, .nil, h⟩
  | cons s ss ih =>
    cases h with
    | cons hstep hrest =>
      obtain ⟨m, hm, hr⟩ := ih hrest
      exact ⟨m, .cons hstep hm, hr⟩

theorem leads_singleton {q r : Location} {s : String} : Leads f q [s] r ↔ Step f q s r := by
  constructor
  · intro h
    cases h with
    | cons hstep hrest =>
      cases hrest
      exact hstep
  · exact fun h => .cons h .nil

/-- Empty segments at the end of a path to a directory. -/
theorem leads_empties {q : Location} (hq : f.node? q = some none) {ss : List String} (h : ∀ s ∈ ss, s = "") :
    Leads f q ss q := by
  induction ss with
  | nil => exact .nil
  | cons s ss ih =>
    rw [List.forall_mem_cons] at h
    exact .cons (.stay hq (.inl h.1)) (ih h.2)

/-- Names lead down. -/
theorem Leads.eq_append {q r l : Location} (h : Leads f q l r) (hl : ∀ n ∈ l, n ≠ "" ∧ n ≠ "." ∧ n ≠ "..") :
    r = q ++ l := by
  induction h with
  | nil => simp
  | @cons q s r ss r' hstep _ ih =>
    rw [List.forall_mem_cons] at hl
    obtain rfl : r = q ++ [s] := by
      cases hstep with
      | stay _ hs =>
        rcases hs with rfl | rfl
        · exact absurd rfl hl.1.1
        · exact absurd rfl hl.1.2.1
      | up => exact absurd rfl hl.1.2.2
      | down => rfl
    rw [ih hl.2, List.append_assoc, List.singleton_append]

/-- A state of the files that has all entries of another one, and the same directories among them. -/
structure Grows (f g : Files) : Prop where
  home : g.home = f.home
  directory : ∀ q, f.node? q = some none → g.node? q = some none
  isSome : ∀ q, (f.node? q).isSome = true → (g.node? q).isSome = true

theorem Grows.refl (f : Files) : Grows f f := ⟨rfl, fun _ h => h, fun _ h => h⟩

theorem Grows.trans {h : Files} (hfg : Grows f g) (hgh : Grows g h) : Grows f h :=
  ⟨hgh.home.trans hfg.home, fun q hq => hgh.directory q (hfg.directory q hq),
    fun q hq => hgh.isSome q (hfg.isSome q hq)⟩

theorem Step.mono (h : Grows f g) {q r : Location} {s : String} (hs : Step f q s r) : Step g q s r := by
  cases hs with
  | stay hq hs => exact .stay (h.directory _ hq) hs
  | up hq => exact .up (h.directory _ hq)
  | down hq hn hsome => exact .down (h.directory _ hq) hn (h.isSome _ hsome)

theorem Leads.mono (h : Grows f g) {q r : Location} {ss : List String} (hs : Leads f q ss r) : Leads g q ss r := by
  induction hs with
  | nil => exact .nil
  | cons hstep _ ih => exact .cons (hstep.mono h) ih

end Files

def Trail.Sound (f : Files) : Trail → Prop
  | [] => True
  | (n, e) :: t => Sound f t ∧ (f.here t).entries.lookup n = some e

namespace Files

variable {f g : Files} {p : Path} {t t' : Trail}

theorem location_cons (n : String) (e : Entry) (t : Trail) : Trail.location ((n, e) :: t) = t.location ++ [n] := by
  simp [Trail.location]

theorem get?_location (h : t.Sound f) : f.root.get? t.location = some (f.here t) := by
  induction t with
  | nil => rfl
  | cons x t ih =>
    obtain ⟨n, e⟩ := x
    rw [location_cons, Entry.get?_append, ih h.1, Option.bind_some, Entry.get?_singleton, h.2]
    rfl

theorem step_of_step (h : t.Sound f) {s : String} (hs : f.step t s = .ok t') :
    t'.Sound f ∧ Step f t.location s t'.location := by
  have hget := get?_location h
  unfold step at hs
  cases hhere : f.here t with
  | file bytes => rw [hhere] at hs; cases hs
  | directory es =>
    rw [hhere] at hs hget
    have hq : f.node? t.location = some none := Entry.node?_of_get? hget
    simp only at hs
    split at hs
    · next hstay =>
      cases hs
      exact ⟨h, .stay hq (by simpa using hstay)⟩
    · next hstay =>
      split at hs
      · next hup =>
        cases hs
        subst hup
        cases t with
        | nil => exact ⟨trivial, .up hq⟩
        | cons x t =>
          obtain ⟨n, e⟩ := x
          have hup := Step.up hq
          rw [location_cons, List.dropLast_concat] at hup
          rw [location_cons]
          exact ⟨h.1, hup⟩
      · next hup =>
        split at hs
        · cases hs
        · next hlong =>
          cases hlookup : es.lookup s with
          | none => rw [hlookup] at hs; cases hs
          | some e =>
            rw [hlookup] at hs
            cases hs
            have hname : IsName s := by
              simp only [Bool.or_eq_true, decide_eq_true_eq, not_or] at hstay
              exact ⟨hstay.1, hstay.2, hup, by simpa using hlong⟩
            have hsound : Trail.Sound f ((s, e) :: t) := ⟨h, by rw [hhere]; exact hlookup⟩
            refine ⟨hsound, ?_⟩
            rw [location_cons]
            refine .down hq hname ?_
            rw [← location_cons s e, node?, Entry.node?_of_get? (get?_location hsound)]
            rfl

theorem here_of_node? (h : t.Sound f) (hq : f.node? t.location = some none) : ∃ es, f.here t = .directory es := by
  obtain ⟨es, hes⟩ := Entry.node?_eq_directory hq
  rw [get?_location h] at hes
  exact ⟨es, Option.some.inj hes⟩

theorem exists_step (h : t.Sound f) {s : String} {r : Location} (hs : Step f t.location s r) :
    ∃ t', f.step t s = .ok t' ∧ t'.Sound f ∧ t'.location = r := by
  cases hs with
  | stay hq hs =>
    obtain ⟨es, hes⟩ := here_of_node? h hq
    refine ⟨t, ?_, h, rfl⟩
    unfold step
    simp [hes, hs]
  | up hq =>
    obtain ⟨es, hes⟩ := here_of_node? h hq
    refine ⟨t.tail, ?_, ?_, ?_⟩
    · unfold step
      simp [hes]
    · cases t with
      | nil => trivial
      | cons x t => exact h.1
    · cases t with
      | nil => rfl
      | cons x t => rw [location_cons, List.dropLast_concat, List.tail_cons]
  | down hq hn hsome =>
    obtain ⟨es, hes⟩ := here_of_node? h hq
    obtain ⟨e, he⟩ : ∃ e, es.lookup s = some e := by
      rw [node?, Entry.node?, Entry.get?_append, get?_location h, Option.bind_some, hes, Entry.get?_singleton,
        Entry.entries, Option.isSome_map, Option.isSome_iff_exists] at hsome
      exact hsome
    have hsound : Trail.Sound f ((s, e) :: t) := ⟨h, by rw [hes]; exact he⟩
    refine ⟨(s, e) :: t, ?_, hsound, location_cons s e t⟩
    unfold step
    simp [hes, hn.1, hn.2.1, hn.2.2.1, hn.2.2.2, he]

theorem leads_of_foldlM {ss : List String} (h : t.Sound f) (hs : ss.foldlM f.step t = .ok t') :
    t'.Sound f ∧ Leads f t.location ss t'.location := by
  induction ss generalizing t with
  | nil =>
    cases hs
    exact ⟨h, .nil⟩
  | cons s ss ih =>
    rw [List.foldlM_cons] at hs
    cases hstep : f.step t s with
    | error e => rw [hstep] at hs; cases hs
    | ok u =>
      rw [hstep] at hs
      obtain ⟨hu, hu'⟩ := step_of_step h hstep
      obtain ⟨ht', hleads⟩ := ih hu hs
      exact ⟨ht', .cons hu' hleads⟩

theorem exists_foldlM {ss : List String} {r : Location} (h : t.Sound f) (hs : Leads f t.location ss r) :
    ∃ t', ss.foldlM f.step t = .ok t' ∧ t'.Sound f ∧ t'.location = r := by
  induction ss generalizing t with
  | nil =>
    cases hs
    exact ⟨t, rfl, h, rfl⟩
  | cons s ss ih =>
    cases hs with
    | cons hstep hrest =>
      obtain ⟨u, hu, hsound, rfl⟩ := exists_step h hstep
      obtain ⟨t', ht', hsound', hr⟩ := ih hsound hrest
      refine ⟨t', ?_, hsound', hr⟩
      rw [List.foldlM_cons, hu]
      exact ht'

theorem leads_of_follow {ss : List String} (h : f.follow p ss = .ok t) :
    t.Sound f ∧ Leads f [] (f.start p ++ ss) t.location := leads_of_foldlM (t := []) trivial h

theorem exists_follow {ss : List String} {r : Location} (h : Leads f [] (f.start p ++ ss) r) :
    ∃ t, f.follow p ss = .ok t ∧ t.Sound f ∧ t.location = r := exists_foldlM (t := []) trivial h

/-- The path is one that the system takes, and it leads to the location. -/
def Reaches (f : Files) (p : Path) (q : Location) : Prop :=
  checkPath p = .ok () ∧ Leads f [] (f.start p ++ p.segments) q

theorem walk_eq_ok (h : f.walk p = .ok t) : t.Sound f ∧ f.Reaches p t.location := by
  unfold walk at h
  cases hcheck : checkPath p with
  | error e => rw [hcheck] at h; cases h
  | ok u =>
    rw [hcheck] at h
    obtain ⟨hsound, hleads⟩ := leads_of_follow h
    exact ⟨hsound, hcheck, hleads⟩

theorem exists_walk {q : Location} (h : f.Reaches p q) : ∃ t, f.walk p = .ok t ∧ t.Sound f ∧ t.location = q := by
  obtain ⟨t, ht, hsound, hq⟩ := exists_follow h.2
  refine ⟨t, ?_, hsound, hq⟩
  rw [walk, h.1]
  exact ht

theorem locate_eq_ok_iff {q : Location} : f.locate p = .ok q ↔ f.Reaches p q := by
  constructor
  · intro h
    unfold locate at h
    cases hwalk : f.walk p with
    | error e => rw [hwalk] at h; cases h
    | ok t =>
      rw [hwalk] at h
      cases h
      exact (walk_eq_ok hwalk).2
  · intro h
    obtain ⟨t, hwalk, -, rfl⟩ := exists_walk h
    rw [locate, hwalk]
    rfl

theorem entry?_eq_some_iff {e : Entry} : f.entry? p = some e ↔ ∃ q, f.Reaches p q ∧ f.root.get? q = some e := by
  constructor
  · intro h
    unfold entry? at h
    cases hwalk : f.walk p with
    | error e => rw [hwalk] at h; cases h
    | ok t =>
      rw [hwalk] at h
      cases h
      obtain ⟨hsound, hreaches⟩ := walk_eq_ok hwalk
      exact ⟨_, hreaches, get?_location hsound⟩
  · rintro ⟨q, hreaches, hget⟩
    obtain ⟨t, hwalk, hsound, rfl⟩ := exists_walk hreaches
    rw [get?_location hsound] at hget
    unfold entry?
    rw [hwalk]
    exact hget

theorem read_eq_ok_iff {bytes : ByteArray} :
    f.read p = .ok bytes ↔ ∃ q, f.Reaches p q ∧ f.node? q = some (some bytes) := by
  constructor
  · intro h
    unfold read at h
    cases hwalk : f.walk p with
    | error e => rw [hwalk] at h; cases h
    | ok t =>
      rw [hwalk] at h
      obtain ⟨hsound, hreaches⟩ := walk_eq_ok hwalk
      refine ⟨_, hreaches, ?_⟩
      have hget := get?_location hsound
      cases hhere : f.here t with
      | directory es => simp only [bind, Except.bind, hhere] at h; cases h
      | file b =>
        simp only [bind, Except.bind, hhere] at h
        cases h
        rw [hhere] at hget
        exact Entry.node?_of_get? hget
  · rintro ⟨q, hreaches, hq⟩
    obtain ⟨t, hwalk, hsound, rfl⟩ := exists_walk hreaches
    have hget := get?_location hsound
    rw [Entry.node?_eq_file hq] at hget
    rw [read, hwalk]
    simp only [bind, Except.bind, ← Option.some.inj hget]

theorem readText_eq_ok {text : String} (h : f.readText p = .ok text) : f.read p = .ok text.toUTF8 := by
  unfold readText at h
  cases hread : f.read p with
  | error e => rw [hread] at h; cases h
  | ok bytes =>
    rw [hread] at h
    simp only [bind, Except.bind, mapError_ok] at h
    cases htext : String.fromUTF8? bytes with
    | none => rw [htext] at h; cases h
    | some s =>
      rw [htext] at h
      cases h
      rw [toUTF8_of_fromUTF8? htext]

theorem Reaches.mono (h : Grows f g) {q : Location} (hq : f.Reaches p q) : g.Reaches p q := by
  refine ⟨hq.1, ?_⟩
  have hstart : g.start p = f.start p := by rw [start, start, h.home]
  rw [hstart]
  exact hq.2.mono h

theorem Reaches.unique {q q' : Location} (h : f.Reaches p q) (h' : f.Reaches p q') : q = q' := h.2.unique h'.2

section File

/-! Paths to files. The last segment of one is a name, and what comes before leads to a directory. -/

variable {q r : Location} {bytes : ByteArray}

/-- Above a directory there is a directory. -/
theorem node?_dropLast (h : f.node? q = some none) : f.node? q.dropLast = some none := by
  by_cases hq : q = []
  · rwa [hq] at h ⊢
  · obtain ⟨front, n, rfl⟩ : ∃ front n, q = front ++ [n] := ⟨_, _, (List.dropLast_concat_getLast hq).symm⟩
    rw [List.dropLast_concat]
    have hsome : (f.node? (front ++ [n])).isSome = true := by rw [h]; rfl
    exact Entry.node?_of_isSome_append hsome

theorem Step.eq_of_file {s : String} (h : Step f q s r) (hr : f.node? r = some (some bytes)) :
    IsName s ∧ r = q ++ [s] := by
  cases h with
  | stay hq _ =>
    rw [hr] at hq
    cases hq
  | up hq =>
    rw [node?_dropLast hq] at hr
    cases hr
  | down _ hn _ => exact ⟨hn, rfl⟩

theorem Reaches.last (h : f.Reaches p q) (hq : f.node? q = some (some bytes)) :
    ∃ init r n, p.segments = init ++ [n] ∧ IsName n ∧ q = r ++ [n] := by
  obtain ⟨init, n, hsegments⟩ : ∃ init n, p.segments = init ++ [n] :=
    ⟨_, _, (List.dropLast_concat_getLast p.segments_ne_nil).symm⟩
  have hleads := h.2
  rw [hsegments, ← List.append_assoc] at hleads
  obtain ⟨r, -, hlast⟩ := hleads.split
  obtain ⟨hn, rfl⟩ := (leads_singleton.1 hlast).eq_of_file hq
  exact ⟨init, r, n, hsegments, hn, rfl⟩

/-- A path leads to the same location without a slash at its end. -/
theorem Reaches.front (h : f.Reaches p q) : Leads f [] (f.start p ++ p.front) q := by
  have hne : p.text.isEmpty = false := by
    have hcheck := h.1
    unfold checkPath at hcheck
    split at hcheck
    · cases hcheck
    · split at hcheck
      · cases hcheck
      · next hempty => simpa using hempty
  unfold Path.front
  rw [if_neg (by simp [hne])]
  split
  · next hslash =>
    have hleads := h.2
    rw [Path.segments_of_slash (by simpa using hslash), ← List.append_assoc] at hleads
    obtain ⟨r, hr, hlast⟩ := hleads.split
    have hstep := leads_singleton.1 hlast
    rwa [hstep.unique (.stay hstep.directory (.inl rfl))]
  · exact h.2

/-- A path below another one leads to a file below where that one leads. -/
theorem Reaches.below {d : Location} {n : String} (h : f.Reaches (p.below (d ++ [n])) q)
    (hq : f.node? q = some (some bytes)) (hd : ∀ m ∈ d, Path.IsSegment m ∧ m ≠ "." ∧ m ≠ "..")
    (hn : Path.IsSegment n) : ∃ r, Leads f [] (f.start p ++ p.front) r ∧ q = r ++ (d ++ [n]) ∧ IsName n := by
  have hsegments : ∀ m ∈ d ++ [n], Path.IsSegment m := by
    intro m hm
    rcases List.mem_append.1 hm with hm | hm
    · exact (hd m hm).1
    · obtain rfl := List.mem_singleton.1 hm
      exact hn
  have hstart : f.start (p.below (d ++ [n])) = f.start p := by rw [start, start, p.isAbsolute_below hsegments]
  have hleads := h.2
  rw [hstart, p.segments_below (by simp) hsegments, ← List.append_assoc, ← List.append_assoc] at hleads
  obtain ⟨m, hm, hlast⟩ := hleads.split
  obtain ⟨r, hr, hdown⟩ := hm.split
  obtain rfl := hdown.eq_append fun k hk => ⟨(hd k hk).1.1, (hd k hk).2⟩
  obtain ⟨hname, rfl⟩ := (leads_singleton.1 hlast).eq_of_file hq
  exact ⟨r, hr, List.append_assoc .., hname⟩

end File

end Files

end ChainCompiler
