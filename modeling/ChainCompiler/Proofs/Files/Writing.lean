import ChainCompiler.Proofs.Files.Walk

/-! What making directories and writing files does. Each changes what is at the one location that its path then leads
to, and leaves everything else as it is. -/

namespace ChainCompiler

namespace Path

/-- A path with an empty last segment ends in a slash, unless it is empty. -/
theorem getLast?_of_segments {p : Path} {init : List String} (hinit : init ≠ []) (h : p.segments = init ++ [""]) :
    p.text.toList.getLast? = some '/' := by
  rw [text_eq_intercalate, h, String.intercalate_append_of_ne_nil hinit (by simp)]
  simp

end Path

namespace Files

variable {f g : Files} {p : Path}

/-- Where a path would put an entry under a name. -/
theorem target_eq_ok {t : Target} {n : String} (h : f.target p = .ok t) (hn : t.name = some n) :
    ∃ init empties, p.segments = init ++ n :: empties ∧ (∀ s ∈ empties, s = "") ∧ n ≠ "" ∧ n ≠ "." ∧ n ≠ ".." ∧
      checkPath p = .ok () ∧ Leads f [] (f.start p ++ init) t.parent ∧
      f.root.get? t.parent = some (.directory t.entries) ∧ t.slash = (p.text.toList.getLast? == some '/') := by
  unfold target at h
  cases hcheck : checkPath p with
  | error e => rw [hcheck] at h; cases h
  | ok u =>
    rw [hcheck] at h
    have hsplit := List.takeWhile_append_dropWhile (p := (·.isEmpty)) (l := p.segments.reverse)
    cases hdrop : p.segments.reverse.dropWhile (·.isEmpty) with
    | nil =>
      simp only [bind, Except.bind, hdrop] at h
      cases h
      cases hn
    | cons last before =>
      simp only [bind, Except.bind, hdrop] at h
      cases hfollow : f.follow p before.reverse with
      | error e => rw [hfollow] at h; cases h
      | ok trail =>
        rw [hfollow] at h
        obtain ⟨hsound, hleads⟩ := leads_of_follow hfollow
        have hget := get?_location hsound
        cases hhere : f.here trail with
        | file bytes => simp only [hhere] at h; cases h
        | directory es =>
          simp only [hhere] at h
          cases h
          simp only at hn
          split at hn
          · cases hn
          next hdots =>
          cases hn
          rw [hhere] at hget
          simp only [Bool.or_eq_true, decide_eq_true_eq, not_or] at hdots
          have hne : n ≠ "" := by
            have hhead := List.head?_dropWhile_not (·.isEmpty) p.segments.reverse
            rw [hdrop] at hhead
            simpa using hhead
          rw [hdrop] at hsplit
          refine ⟨before.reverse, (p.segments.reverse.takeWhile (·.isEmpty)).reverse, ?_, ?_, hne, hdots.1, hdots.2,
            rfl, hleads, hget, rfl⟩
          · have hsegments := congrArg List.reverse hsplit
            simpa using hsegments.symm
          · intro s hs
            simpa using List.all_eq_true.1 List.all_takeWhile s (List.mem_reverse.1 hs)

/-- The later state has something else at one location, to which the path leads then, and where no directory was. -/
structure Puts (f g : Files) (p : Path) (node : Option ByteArray) (q : Location) : Prop where
  home : g.home = f.home
  node? : ∀ r, g.node? r = if r = q then some node else f.node? r
  old : f.node? q ≠ some none
  reaches : g.Reaches p q

theorem grows_of_node? {q : Location} {node : Option ByteArray} (hhome : g.home = f.home)
    (hnode : ∀ r, g.node? r = if r = q then some node else f.node? r) (hold : f.node? q ≠ some none) : Grows f g := by
  refine ⟨hhome, fun r hr => ?_, fun r hr => ?_⟩
  · rw [hnode, if_neg ?_, hr]
    rintro rfl
    exact hold hr
  · rw [hnode]
    split
    · rfl
    · exact hr

theorem Puts.grows {node : Option ByteArray} {q : Location} (h : Puts f g p node q) : Grows f g :=
  grows_of_node? h.home h.node? h.old

/-- A childless entry is put where a path says, which may end in slashes if the entry is a directory. -/
theorem puts_of_leads {new : Entry} (hnew : new.entries = []) {init empties : List String} {n : String} {q : Location}
    (hsegments : p.segments = init ++ n :: empties) (hempties : ∀ s ∈ empties, s = "") (hn : IsName n)
    (hcheck : checkPath p = .ok ()) (hleads : Leads f [] (f.start p ++ init) q) (hq : f.node? q = some none)
    (hold : f.node? (q ++ [n]) ≠ some none) (hslash : empties = [] ∨ new.content = none) :
    Puts f { f with root := f.root.set new (q ++ [n]) } p new.content (q ++ [n]) := by
  have hnode := Entry.node?_set hq hold hnew
  have hgrows : Grows f { f with root := f.root.set new (q ++ [n]) } := grows_of_node? rfl hnode hold
  refine ⟨rfl, hnode, hold, hcheck, ?_⟩
  have hat := hnode (q ++ [n])
  rw [if_pos rfl] at hat
  rw [hsegments, ← List.append_assoc]
  refine (hleads.mono hgrows).append (.cons (.down (hgrows.directory q hq) hn ?_) ?_)
  · rw [node?, hat]
    rfl
  · rcases hslash with rfl | hdirectory
    · exact .nil
    · exact leads_empties (by rw [node?, hat, hdirectory]) hempties

theorem node?_concat {q : Location} {es : List (String × Entry)} (h : f.root.get? q = some (.directory es))
    (n : String) :
    f.node? (q ++ [n]) = (es.lookup n).map Entry.content := by
  rw [node?, Entry.node?, Entry.get?_append, h, Option.bind_some, Entry.get?_singleton]
  rfl

/-- A file is written where no directory is. -/
theorem write_eq_ok {bytes : ByteArray} (h : f.write p bytes = .ok g) : ∃ q, Puts f g p (some bytes) q := by
  unfold write at h
  cases htarget : f.target p with
  | error e => rw [htarget] at h; cases h
  | ok t =>
    rw [htarget] at h
    simp only [bind, Except.bind] at h
    cases hname : t.name with
    | none => rw [hname] at h; cases h
    | some n =>
      obtain ⟨init, empties, hsegments, hempties, hne, hdot, hdots, hcheck, hleads, hget, hslash⟩ :=
        target_eq_ok htarget hname
      cases hs : t.slash with
      | true => simp only [hname, hs] at h; cases h
      | false =>
        simp only [hname, hs] at h
        split at h
        · cases h
        next hlong =>
        split at h
        · cases h
        next hdirectory =>
        cases h
        have hnil : empties = [] := by
          rcases empties.eq_nil_or_concat with hnil | ⟨front, last, rfl⟩
          · exact hnil
          · obtain rfl := hempties last (by simp)
            have hsplit : p.segments = (init ++ n :: front) ++ [""] := by simpa using hsegments
            have hends := Path.getLast?_of_segments (by simp) hsplit
            rw [hs, hends] at hslash
            cases hslash
        have hold : f.node? (t.parent ++ [n]) ≠ some none := by
          rw [node?_concat hget]
          cases hlookup : t.entries.lookup n with
          | none => simp
          | some e =>
            rw [hlookup] at hdirectory
            cases e with
            | file b => simp [Entry.content]
            | directory es => exact absurd rfl hdirectory
        exact ⟨_, puts_of_leads rfl hsegments hempties ⟨hne, hdot, hdots, by simpa using hlong⟩ hcheck hleads
          (Entry.node?_of_get? hget) hold (.inl hnil)⟩

/-- A directory is made where nothing is. -/
theorem makeDirectory_eq_ok (h : f.makeDirectory p = .ok g) : ∃ q, Puts f g p none q ∧ f.node? q = none := by
  unfold makeDirectory at h
  cases htarget : f.target p with
  | error e => rw [htarget] at h; cases h
  | ok t =>
    rw [htarget] at h
    simp only [bind, Except.bind] at h
    cases hname : t.name with
    | none => rw [hname] at h; cases h
    | some n =>
      obtain ⟨init, empties, hsegments, hempties, hne, hdot, hdots, hcheck, hleads, hget, -⟩ :=
        target_eq_ok htarget hname
      simp only [hname] at h
      split at h
      · cases h
      next hlong =>
      split at h
      · cases h
      next hexists =>
      cases h
      have hnone : f.node? (t.parent ++ [n]) = none := by
        rw [node?_concat hget]
        cases hlookup : t.entries.lookup n with
        | none => rfl
        | some e =>
          rw [hlookup] at hexists
          exact absurd rfl hexists
      refine ⟨_, puts_of_leads rfl hsegments hempties ⟨hne, hdot, hdots, by simpa using hlong⟩ hcheck hleads
        (Entry.node?_of_get? hget) (by simp [hnone]) (.inr rfl), hnone⟩

/-- The later state has more directories, each where one of the paths leads then. -/
structure Makes (f g : Files) (ps : List Path) : Prop where
  home : g.home = f.home
  node? : ∀ q, g.node? q = f.node? q ∨
    f.node? q = none ∧ g.node? q = some none ∧ ∃ p ∈ ps, g.Reaches p q

namespace Makes

variable {ps : List Path}

theorem refl (f : Files) (ps : List Path) : Makes f f ps := ⟨rfl, fun _ => .inl rfl⟩

theorem grows (h : Makes f g ps) : Grows f g := by
  refine ⟨h.home, fun q hq => ?_, fun q hq => ?_⟩
  · rcases h.node? q with hsame | ⟨hnone, hnew, -⟩
    · rw [hsame, hq]
    · exact hnew
  · rcases h.node? q with hsame | ⟨hnone, hnew, -⟩
    · rwa [hsame]
    · rw [hnew]
      rfl

theorem trans {k : Files} (h : Makes f g ps) (h' : Makes g k ps) : Makes f k ps := by
  refine ⟨h'.home.trans h.home, fun q => ?_⟩
  rcases h'.node? q with hsame' | ⟨hnone', hnew', p, hp, hreaches⟩
  · rcases h.node? q with hsame | ⟨hnone, hnew, p, hp, hreaches⟩
    · exact .inl (hsame'.trans hsame)
    · exact .inr ⟨hnone, hsame'.trans hnew, p, hp, hreaches.mono h'.grows⟩
  · have hnone : f.node? q = none := by
      rcases h.node? q with hsame | ⟨hnone, -, -⟩
      · rw [← hsame, hnone']
      · exact hnone
    exact .inr ⟨hnone, hnew', p, hp, hreaches⟩

theorem imp {ps' : List Path} (h : Makes f g ps) (hps : ∀ p ∈ ps, p ∈ ps') : Makes f g ps' := by
  refine ⟨h.home, fun q => ?_⟩
  rcases h.node? q with hsame | ⟨hnone, hnew, p, hp, hreaches⟩
  · exact .inl hsame
  · exact .inr ⟨hnone, hnew, p, hps p hp, hreaches⟩

end Makes

theorem makeDirectory_makes (h : f.makeDirectory p = .ok g) {ps : List Path} (hp : p ∈ ps) : Makes f g ps := by
  obtain ⟨q, hputs, hnone⟩ := makeDirectory_eq_ok h
  refine ⟨hputs.home, fun r => ?_⟩
  have hr := hputs.node? r
  split at hr
  · next heq =>
    subst heq
    exact .inr ⟨hnone, hr, p, hp, hputs.reaches⟩
  · exact .inl hr

/-- Whatever comes of it, only directories are made. -/
theorem makeDirectories_makes (f : Files) (ps : List Path) : Makes f (f.makeDirectories ps).1 ps := by
  induction ps generalizing f with
  | nil => exact .refl f []
  | cons p above ih =>
    have habove : Makes f (f.makeDirectories above).1 (p :: above) := (ih f).imp (by simp +contextual)
    unfold makeDirectories
    split
    · exact .refl _ _
    · split
      · next hmade => exact makeDirectory_makes hmade (by simp)
      · rcases hrest : f.makeDirectories above with ⟨k, e | _⟩
        · rw [hrest] at habove
          exact habove
        · rw [hrest] at habove
          cases hmade : k.makeDirectory p with
          | ok k' =>
            simp only [hmade]
            exact habove.trans (makeDirectory_makes hmade (by simp))
          | error e =>
            simp only [hmade]
            exact habove
      · exact .refl _ _

theorem makeAll_makes (f : Files) (p : Path) : Makes f (f.makeAll p).1 (p.ancestors (p.text.length + 1)) :=
  makeDirectories_makes f _

end Files

namespace Path

/-- The second path is the first one without some of its last segments. -/
inductive Above (p : Path) : Path → Prop
  | parent {q} : p.parent? = some q → Above p q
  | up {q r} : Above p q → q.parent? = some r → Above p r

theorem above_of_mem_ancestors {p q a : Path} {n : Nat} (hq : p.Above q) (h : a ∈ q.ancestors n) : p.Above a := by
  induction n generalizing q with
  | zero => cases h
  | succ n ih =>
    unfold ancestors at h
    cases hparent : q.parent? with
    | none =>
      rw [hparent] at h
      obtain rfl := List.mem_singleton.1 h
      exact hq
    | some r =>
      rw [hparent] at h
      rcases List.mem_cons.1 h with rfl | h
      · exact hq
      · exact ih (hq.up hparent) h

end Path

namespace Files

variable {f g : Files}

/-- Two paths never lead to one file. -/
def Apart (p p' : Path) : Prop :=
  ∀ (f : Files) (q : Location) (bytes : ByteArray), f.Reaches p q → f.Reaches p' q → f.node? q ≠ some (some bytes)

/-- The later state has files with these bytes where these paths lead then. Everything else is as before, but for
directories above the paths. -/
structure Writes (f g : Files) (ws : List (Path × ByteArray)) : Prop where
  home : g.home = f.home
  read : ∀ w ∈ ws, g.read w.1 = .ok w.2
  node? : ∀ q, g.node? q = f.node? q ∨
    (f.node? q ≠ some none ∧ ∃ w ∈ ws, g.Reaches w.1 q) ∨
    (f.node? q = none ∧ g.node? q = some none ∧ ∃ w ∈ ws, ∃ a, w.1.Above a ∧ g.Reaches a q)

namespace Writes

variable {ws : List (Path × ByteArray)}

theorem nil (f : Files) : Writes f f [] := ⟨rfl, by simp, fun _ => .inl rfl⟩

theorem node?_of_reaches (h : Writes f g ws) {w : Path × ByteArray} (hw : w ∈ ws) {q : Location}
    (hq : g.Reaches w.1 q) : g.node? q = some (some w.2) := by
  obtain ⟨r, hr, hnode⟩ := read_eq_ok_iff.1 (h.read w hw)
  rwa [hq.unique hr]

theorem grows (h : Writes f g ws) : Grows f g := by
  refine ⟨h.home, fun q hq => ?_, fun q hq => ?_⟩
  · rcases h.node? q with hsame | ⟨hold, -⟩ | ⟨hnone, -⟩
    · rw [hsame, hq]
    · exact absurd hq hold
    · rw [hnone] at hq
      cases hq
  · rcases h.node? q with hsame | ⟨-, w, hw, hreaches⟩ | ⟨hnone, -⟩
    · rwa [hsame]
    · rw [h.node?_of_reaches hw hreaches]
      rfl
    · rw [hnone] at hq
      cases hq

/-- Some directories are made, a file is written, and then the others. None of those takes the place of the file. -/
theorem cons {k k' : Files} {w : Path × ByteArray} {ps : List Path} {q : Location} (hmakes : Makes f k ps)
    (hps : ∀ a ∈ ps, w.1.Above a) (hputs : Puts k k' w.1 (some w.2) q) (hrest : Writes k' g ws)
    (hapart : ∀ w' ∈ ws, w = w' ∨ Apart w.1 w'.1) : Writes f g (w :: ws) := by
  have hfk' : Grows f k' := hmakes.grows.trans hputs.grows
  have hreaches : g.Reaches w.1 q := hputs.reaches.mono hrest.grows
  have hput : k'.node? q = some (some w.2) := by rw [hputs.node?, if_pos rfl]
  refine ⟨hrest.home.trans hfk'.home, ?_, fun r => ?_⟩
  · rw [List.forall_mem_cons]
    refine ⟨read_eq_ok_iff.2 ⟨q, hreaches, ?_⟩, hrest.read⟩
    rcases hrest.node? q with hsame | ⟨-, w', hw', hreaches'⟩ | ⟨hnone, -⟩
    · rw [hsame, hput]
    · have hfile := hrest.node?_of_reaches hw' hreaches'
      rcases hapart w' hw' with rfl | hapart
      · exact hfile
      · exact absurd hfile (hapart g q _ hreaches hreaches')
    · rw [hput] at hnone
      cases hnone
  · rcases hrest.node? r with hsame | ⟨hold, w', hw', hreaches'⟩ | ⟨hnone, hnew, w', hw', above⟩
    · rw [hsame, hputs.node?]
      by_cases hr : r = q
      · subst hr
        refine .inr (.inl ⟨fun hdirectory => ?_, w, by simp, hreaches⟩)
        exact hputs.old (hmakes.grows.directory _ hdirectory)
      · rw [if_neg hr]
        rcases hmakes.node? r with hsame' | ⟨hnone, hnew, a, ha, hreaches'⟩
        · exact .inl hsame'
        · refine .inr (.inr ⟨hnone, hnew, w, by simp, a, hps a ha, ?_⟩)
          exact hreaches'.mono (hputs.grows.trans hrest.grows)
    · exact .inr (.inl ⟨fun hdirectory => hold (hfk'.directory r hdirectory), w', by simp [hw'], hreaches'⟩)
    · refine .inr (.inr ⟨?_, hnew, w', by simp [hw'], above⟩)
      cases hf : f.node? r with
      | none => rfl
      | some node =>
        have hsome := hfk'.isSome r (by rw [hf]; rfl)
        rw [hnone] at hsome
        cases hsome

end Writes

end Files

end ChainCompiler
