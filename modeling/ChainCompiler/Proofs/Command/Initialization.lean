import ChainCompiler.Proofs.Command.Emission

/-! Starting a project. Whatever comes of it, what was there is still there, but two files of the project are written
again if they were there. The configuration is always a new file, and a directory that has one is left alone. -/

namespace ChainCompiler

namespace Files

variable {f g k : Files} {p : Path} {q : Location} {ws : List (Path × ByteArray)}

theorem exists?_iff : f.exists? p = true ↔ ∃ q, f.Reaches p q := by
  constructor
  · intro h
    obtain ⟨e, he⟩ := Option.isSome_iff_exists.1 h
    obtain ⟨q, hq, -⟩ := entry?_eq_some_iff.1 he
    exact ⟨q, hq⟩
  · rintro ⟨q, hq⟩
    obtain ⟨t, ht, -⟩ := exists_walk hq
    rw [exists?, entry?, ht]
    rfl

theorem checkPath_eq_ok_iff :
    checkPath p = .ok () ↔ '\x00' ∉ p.text.toList ∧ p.text ≠ "" ∧ p.text.utf8ByteSize ≤ pathLimit := by
  unfold checkPath
  by_cases hnul : '\x00' ∈ p.text.toList
  · simp [hnul]
  by_cases hempty : p.text = ""
  · simp [hempty]
  by_cases hlong : pathLimit < p.text.utf8ByteSize
  · simp [hlong, hnul, hempty, Nat.not_le.2 hlong]
  · simp [hlong, hnul, hempty, Nat.not_lt.1 hlong]

section Below

variable {l : Location} {n : String}

theorem leads_below (hn : Path.IsSegment n) :
    Leads f [] (f.start (p.below [n]) ++ (p.below [n]).segments) q ↔
      ∃ r, Leads f [] (f.start p ++ p.front) r ∧ Step f r n q := by
  have hsegment : ∀ m ∈ [n], Path.IsSegment m := by simpa using hn
  have hstart : f.start (p.below [n]) = f.start p := by rw [start, start, p.isAbsolute_below hsegment]
  rw [hstart, p.segments_below (by simp) hsegment, ← List.append_assoc]
  constructor
  · intro h
    obtain ⟨r, hr, hlast⟩ := h.split
    exact ⟨r, hr, leads_singleton.1 hlast⟩
  · rintro ⟨r, hr, hlast⟩
    exact hr.append (leads_singleton.2 hlast)

/-- What is below a path has a longer text. -/
theorem exists_text_below (hn : Path.IsSegment n) : ∃ rest, (p.below [n]).text = p.text ++ rest := by
  have habsolute : Path.isAbsolute ⟨"/".intercalate [n]⟩ = false := Path.isAbsolute_intercalate (by simpa using hn)
  rw [Path.below, Path.join, habsolute, Bool.false_or]
  split
  · next hempty => exact ⟨_, by rw [String.isEmpty_iff.1 hempty, String.empty_append]⟩
  · split
    · exact ⟨_, rfl⟩
    · exact ⟨"/" ++ n, String.append_assoc ..⟩

/-- Where a path below another one leads somewhere, the other one does, unless it is empty. -/
theorem Reaches.of_below (h : f.Reaches (p.below [n]) q) (hn : Path.IsSegment n) (hp : p.text ≠ "") :
    ∃ r, f.Reaches p r := by
  obtain ⟨hcheck, hleads⟩ := h
  obtain ⟨r, hr, hlast⟩ := (leads_below hn).1 hleads
  refine ⟨r, ?_, ?_⟩
  · obtain ⟨rest, hrest⟩ := exists_text_below (p := p) hn
    rw [checkPath_eq_ok_iff, hrest, String.toList_append, String.utf8ByteSize_append] at hcheck
    rw [checkPath_eq_ok_iff]
    exact ⟨fun hnul => hcheck.1 (List.mem_append_left _ hnul), hp, by omega⟩
  · unfold Path.front at hr
    rw [if_neg (by simpa using hp)] at hr
    split at hr
    · next hslash =>
      rw [Path.segments_of_slash (by simpa using hslash), ← List.append_assoc]
      exact hr.append (leads_singleton.2 (.stay hlast.directory (.inl rfl)))
    · exact hr

theorem Reaches.eq_below (h : f.Reaches p l) (hq : f.Reaches (p.below [n]) q) (hn : Path.IsSegment n) (hname : IsName n) :
    q = l ++ [n] := by
  obtain ⟨r, hr, hlast⟩ := (leads_below hn).1 hq.2
  obtain rfl := hr.unique h.front
  exact (leads_singleton.2 hlast).eq_append (by simpa using ⟨hname.1, hname.2.1, hname.2.2.1⟩)

/-- What is in the directory of a path is found below the path. -/
theorem Reaches.below_of_isSome (h : f.Reaches p l) (hn : Path.IsSegment n) (hname : IsName n)
    (hcheck : checkPath (p.below [n]) = .ok ()) (hsome : (f.node? (l ++ [n])).isSome = true) :
    f.Reaches (p.below [n]) (l ++ [n]) := by
  refine ⟨hcheck, (leads_below hn).2 ⟨l, h.front, .down ?_ hname hsome⟩⟩
  exact Entry.node?_of_isSome_append hsome

end Below

/-- What was there is there, and as it was, but for files that are written again. -/
structure Keeps (f g : Files) (ws : List (Path × ByteArray)) : Prop where
  grows : Grows f g
  file : ∀ q bytes, f.node? q = some (some bytes) →
    g.node? q = some (some bytes) ∨ ∃ w ∈ ws, g.Reaches w.1 q ∧ g.node? q = some (some w.2)

namespace Keeps

theorem refl (f : Files) (ws : List (Path × ByteArray)) : Keeps f f ws := ⟨.refl f, fun _ _ h => .inl h⟩

theorem trans (h : Keeps f g ws) (h' : Keeps g k ws) : Keeps f k ws := by
  refine ⟨h.grows.trans h'.grows, fun q bytes hq => ?_⟩
  rcases h.file q bytes hq with hsame | ⟨w, hw, hreaches, hnew⟩
  · exact h'.file q bytes hsame
  · rcases h'.file q w.2 hnew with hsame' | hrewritten
    · exact .inr ⟨w, hw, hreaches.mono h'.grows, hsame'⟩
    · exact .inr hrewritten

end Keeps

theorem Makes.keeps {ps : List Path} (h : Makes f g ps) (ws : List (Path × ByteArray)) : Keeps f g ws := by
  refine ⟨h.grows, fun q bytes hq => ?_⟩
  rcases h.node? q with hsame | ⟨hnone, -⟩
  · exact .inl (hsame.trans hq)
  · rw [hnone] at hq
    cases hq

/-- A file is written, as one of those or as a new one. -/
theorem Puts.keeps {bytes : ByteArray} (h : Puts f g p (some bytes) q) (hnew : (p, bytes) ∈ ws ∨ f.node? q = none) :
    Keeps f g ws := by
  refine ⟨h.grows, fun r old hr => ?_⟩
  rw [h.node?]
  split
  · next heq =>
    subst heq
    rcases hnew with hmem | hnone
    · exact .inr ⟨_, hmem, h.reaches, rfl⟩
    · rw [hnone] at hr
      cases hr
  · exact .inl hr

end Files

namespace Command

def furtherFiles (path : Path) : List (Path × ByteArray) :=
  [(path.join ⟨"chains/example.chain"⟩, Run.exampleSource.toUTF8), (path.join ⟨".gitignore"⟩, Run.ignoredFiles.toUTF8)]

def projectFiles (path : Path) (name : String) : List (Path × ByteArray) :=
  (path.join ⟨Project.fileName⟩, (Run.newConfiguration name).toUTF8) :: furtherFiles path

namespace Run

variable {α β : Type} {x : Run α} {f : α → Run β} {s t : Session} {ws : List (Path × ByteArray)} {path : Path}
  {name : Option String}

def prepare (path : Path) : Run Unit := do
  unless (← files).exists? path do makeAll path .system

def furnish (path : Path) (name : String) : Run Unit := do
  if (← files).exists? (path.join ⟨Project.fileName⟩) then throw (.initialized path)
  makeAll (path.join ⟨"chains"⟩) .system
  write (path.join ⟨Project.fileName⟩) (newConfiguration name) .system
  write (path.join ⟨"chains/example.chain"⟩) exampleSource .system
  write (path.join ⟨".gitignore"⟩) ignoredFiles .system

theorem startProject_eq (path : Path) (name : Option String) :
    startProject path name =
      prepare path >>= fun _ => projectName path name >>= fun name => furnish path name := by
  funext s
  rw [startProject, bind_of_ok _ (files_apply s), bind_apply (prepare path), prepare, bind_of_ok _ (files_apply s)]
  cases s.files.exists? path <;> rfl

theorem prepare_of_exists (h : s.files.exists? path = true) : prepare path s = (.ok (), s) := by
  rw [prepare, bind_of_ok _ (files_apply s), h]
  rfl

theorem prepare_of_missing (h : s.files.exists? path = false) : prepare path s = makeAll path .system s := by
  rw [prepare, bind_of_ok _ (files_apply s), h]
  rfl

/-- Looking for a name has no effect. -/
theorem projectName_cases (path : Path) (name : Option String) (s : Session) :
    (∃ l n, s.files.Reaches path l ∧ (name <|> l.getLast?) = some n ∧ projectName path name s = (.ok n, s)) ∨
      ∃ e, projectName path name s = (.error e, s) := by
  rw [projectName, bind_of_ok _ (files_apply s)]
  cases hl : s.files.locate path with
  | error e => exact .inr ⟨_, rfl⟩
  | ok l =>
    simp only
    cases hn : name <|> l.getLast? with
    | none => exact .inr ⟨_, rfl⟩
    | some n => exact .inl ⟨l, n, Files.locate_eq_ok_iff.1 hl, hn, rfl⟩

theorem furnish_of_exists {n : String} (h : s.files.exists? (path.join ⟨Project.fileName⟩) = true) :
    furnish path n s = (.error (.initialized path), s) := by
  rw [furnish, bind_of_ok _ (files_apply s), h]
  rfl

theorem furnish_of_missing {n : String} (h : s.files.exists? (path.join ⟨Project.fileName⟩) = false) :
    furnish path n s = (do
      makeAll (path.join ⟨"chains"⟩) .system
      write (path.join ⟨Project.fileName⟩) (newConfiguration n) .system
      write (path.join ⟨"chains/example.chain"⟩) exampleSource .system
      write (path.join ⟨".gitignore"⟩) ignoredFiles .system) s := by
  rw [furnish, bind_of_ok _ (files_apply s), h]
  rfl

theorem keeps_bind (hx : s.files.Keeps (x s).2.files ws)
    (hf : ∀ a t, x s = (.ok a, t) → t.files.Keeps (f a t).2.files ws) : s.files.Keeps ((x >>= f) s).2.files ws := by
  rcases hs : x s with ⟨e | a, t⟩
  · rw [hs] at hx
    rwa [bind_of_error _ hs]
  · rw [hs] at hx
    rw [bind_of_ok _ hs]
    exact hx.trans (hf a t hs)

theorem makeAll_keeps (path : Path) (failure : SystemError → Failure) (ws : List (Path × ByteArray)) (s : Session) :
    s.files.Keeps (makeAll path failure s).2.files ws := by
  rw [makeAll_apply]
  exact (Files.makeAll_makes s.files path).keeps ws

theorem write_cases (path : Path) (text : String) (failure : SystemError → Failure) (s : Session) :
    (∃ g q, s.files.Puts g path (some text.toUTF8) q ∧ write path text failure s = (.ok (), ⟨g, s.output⟩)) ∨
      ∃ e, write path text failure s = (.error e, s) := by
  cases hwrite : s.files.write path text.toUTF8 with
  | error e => exact .inr ⟨_, write_of_error failure hwrite⟩
  | ok g =>
    obtain ⟨q, hputs⟩ := Files.write_eq_ok hwrite
    exact .inl ⟨g, q, hputs, write_of_ok failure hwrite⟩

theorem write_keeps {text : String} (failure : SystemError → Failure) (s : Session) (hmem : (path, text.toUTF8) ∈ ws) :
    s.files.Keeps (write path text failure s).2.files ws := by
  rcases write_cases path text failure s with ⟨g, q, hputs, hwrite⟩ | ⟨e, hwrite⟩
  · rw [hwrite]
    exact hputs.keeps (.inl hmem)
  · rw [hwrite]
    exact .refl _ _

theorem prepare_keeps (path : Path) (ws : List (Path × ByteArray)) (s : Session) :
    s.files.Keeps (prepare path s).2.files ws := by
  cases h : s.files.exists? path with
  | true =>
    rw [prepare_of_exists h]
    exact .refl _ _
  | false =>
    rw [prepare_of_missing h]
    exact makeAll_keeps _ _ _ s

/-- Where there was no configuration, only directories are made before it is written, so it is a new file. -/
theorem node?_of_puts_configuration {f g k : Files} {l q : Location} {ps : List Path} {bytes : ByteArray}
    (hpath : f.Reaches path l) (hmissing : f.exists? (path.join ⟨Project.fileName⟩) = false) (hmakes : f.Makes g ps)
    (hputs : g.Puts k (path.join ⟨Project.fileName⟩) (some bytes) q) : g.node? q = none := by
  have hsegment : Path.IsSegment Project.fileName := by decide
  have hname : Files.IsName Project.fileName := ⟨by decide, by decide, by decide, by decide⟩
  have hq : q = l ++ [Project.fileName] :=
    (hpath.mono (hmakes.grows.trans hputs.grows)).eq_below hputs.reaches hsegment hname
  rcases hmakes.node? q with hsame | ⟨-, hdirectory, -⟩
  · by_contra hsome
    rw [hsame, hq] at hsome
    have hreaches := hpath.below_of_isSome hsegment hname hputs.reaches.1 (Option.isSome_iff_ne_none.2 hsome)
    have hexists := Files.exists?_iff.2 ⟨_, hreaches⟩
    exact absurd (hexists.symm.trans hmissing) (by simp)
  · exact absurd hdirectory hputs.old

theorem furnish_keeps {l : Location} {n : String} (hpath : s.files.Reaches path l) :
    s.files.Keeps (furnish path n s).2.files (furtherFiles path) := by
  cases hexists : s.files.exists? (path.join ⟨Project.fileName⟩) with
  | true =>
    rw [furnish_of_exists hexists]
    exact .refl _ _
  | false =>
    rw [furnish_of_missing hexists]
    refine keeps_bind (makeAll_keeps _ _ _ s) fun _ t hmake => keeps_bind ?_ fun _ u _ => ?_
    · have hmakes := Files.makeAll_makes s.files (path.join ⟨"chains"⟩)
      rw [makeAll_apply] at hmake
      obtain rfl := congrArg Prod.snd hmake
      rcases write_cases (path.join ⟨Project.fileName⟩) (newConfiguration n) .system
        ⟨(s.files.makeAll (path.join ⟨"chains"⟩)).1, s.output⟩ with ⟨g, q, hputs, hwrite⟩ | ⟨e, hwrite⟩
      · rw [hwrite]
        exact hputs.keeps (.inr (node?_of_puts_configuration hpath hexists hmakes hputs))
      · rw [hwrite]
        exact .refl _ _
    · refine keeps_bind (write_keeps _ u (by simp [furtherFiles])) fun _ v _ => ?_
      exact write_keeps _ v (by simp [furtherFiles])

/-- Starting a project never takes anything away. -/
theorem startProject_keeps (path : Path) (name : Option String) (s : Session) :
    s.files.Keeps (startProject path name s).2.files (furtherFiles path) := by
  rw [startProject_eq]
  refine keeps_bind (prepare_keeps path _ s) fun _ t _ => ?_
  rcases projectName_cases path name t with ⟨l, n, hl, -, hname⟩ | ⟨e, hname⟩
  · rw [bind_of_ok _ hname]
    exact furnish_keeps hl
  · rw [bind_of_error _ hname]
    exact .refl _ _

/-- A directory with a configuration is left alone. -/
theorem startProject_of_exists (name : Option String) (h : s.files.exists? (path.join ⟨Project.fileName⟩) = true) :
    ∃ e, startProject path name s = (.error e, s) := by
  have hprepare : prepare path s = (.ok (), s) := by
    by_cases hempty : path.text = ""
    · obtain rfl : path = ⟨""⟩ := congrArg Path.mk hempty
      have hmissing : s.files.exists? ⟨""⟩ = false := rfl
      have hmake : s.files.makeAll ⟨""⟩ = (s.files, .ok ()) := rfl
      rw [prepare_of_missing hmissing, makeAll_apply, hmake]
      rfl
    · obtain ⟨q, hq⟩ := Files.exists?_iff.1 h
      exact prepare_of_exists (Files.exists?_iff.2 (hq.of_below (by decide) hempty))
  rw [startProject_eq, bind_of_ok _ hprepare]
  rcases projectName_cases path name s with ⟨l, n, -, -, hname⟩ | ⟨e, hname⟩
  · rw [bind_of_ok _ hname, furnish_of_exists h]
    exact ⟨_, rfl⟩
  · rw [bind_of_error _ hname]
    exact ⟨_, rfl⟩

/-- The files of a new project are different ones. -/
theorem apart_projectFiles (path : Path) (n : String) :
    (projectFiles path n).Pairwise fun w w' => Files.Apart w.1 w'.1 := by
  have hnil : IsNames [] := fun _ hm => nomatch hm
  have hchains : IsNames ["chains"] := by simp [IsNames, Path.IsSegment]
  have hexample : path.below ["chains", "example.chain"] = path.join ⟨"chains/example.chain"⟩ := by
    rw [Path.below]
    rfl
  have hsingle : ∀ m, path.below [m] = path.join ⟨m⟩ := fun m => by rw [Path.below, String.intercalate_singleton]
  have h₁ := Files.apart_below path hnil (show Path.IsSegment Project.fileName by decide) hchains
    (show Path.IsSegment "example.chain" by decide) (by decide)
  have h₂ := Files.apart_below path hnil (show Path.IsSegment Project.fileName by decide) hnil
    (show Path.IsSegment ".gitignore" by decide) (by decide)
  have h₃ := Files.apart_below path hchains (show Path.IsSegment "example.chain" by decide) hnil
    (show Path.IsSegment ".gitignore" by decide) (by decide)
  simp only [List.nil_append, List.cons_append, hsingle, hexample] at h₁ h₂ h₃
  simp only [projectFiles, furtherFiles, List.pairwise_cons, List.forall_mem_cons]
  exact ⟨⟨h₁, h₂, by simp⟩, ⟨h₃, by simp⟩, by simp, .nil⟩

/-- A file is written, and then others that do not take its place. -/
theorem writes_of_write {text : String} {failure : SystemError → Failure} {g : Files}
    (h : write path text failure s = (.ok (), t)) (hrest : t.files.Writes g ws)
    (hapart : ∀ w ∈ ws, Files.Apart path w.1) : s.files.Writes g ((path, text.toUTF8) :: ws) := by
  rcases write_cases path text failure s with ⟨k, q, hputs, hwrite⟩ | ⟨e, hwrite⟩
  · obtain rfl := congrArg Prod.snd (hwrite.symm.trans h)
    exact .cons (.refl _ []) (by simp) hputs hrest fun w hw => .inr (hapart w hw)
  · rw [hwrite] at h
    cases h

/-- A project that was started has its files, and the directory of its path has its name if none was given. -/
theorem startProject_eq_ok (h : startProject path name s = (.ok (), t)) :
    ∃ l n, t.files.Reaches path l ∧ (name <|> l.getLast?) = some n ∧
      ∀ w ∈ projectFiles path n, t.files.read w.1 = .ok w.2 := by
  rw [startProject_eq] at h
  obtain ⟨-, t₁, -, h⟩ := bind_eq_ok.1 h
  rcases projectName_cases path name t₁ with ⟨l, n, hl, hn, hname⟩ | ⟨e, hname⟩
  · rw [bind_of_ok _ hname] at h
    cases hexists : t₁.files.exists? (path.join ⟨Project.fileName⟩) with
    | true =>
      rw [furnish_of_exists hexists] at h
      cases h
    | false =>
      have hkeeps := furnish_keeps (n := n) hl
      rw [h] at hkeeps
      refine ⟨l, n, hl.mono hkeeps.grows, hn, ?_⟩
      rw [furnish_of_missing hexists] at h
      obtain ⟨_, t₂, -, h⟩ := bind_eq_ok.1 h
      obtain ⟨_, t₃, h₃, h⟩ := bind_eq_ok.1 h
      obtain ⟨_, t₄, h₄, h₅⟩ := bind_eq_ok.1 h
      have hapart := apart_projectFiles path n
      simp only [projectFiles, furtherFiles, List.pairwise_cons] at hapart
      exact (writes_of_write h₃ (writes_of_write h₄ (writes_of_write h₅ (.nil _) hapart.2.2.1) hapart.2.1) hapart.1).read
  · rw [bind_of_error _ hname] at h
    cases h

end Run

/-- Starting a project, with whatever exit code, keeps all that was there, but for two files of the project that are
written again with their usual texts. It always writes them if it succeeds. Where a configuration was, it fails and
changes nothing. -/
theorem run_init_keeps {files : Files} {args : List String} {config path : String} {name : Option String}
    (hargs : readArguments args = .ok ⟨config, .init path name⟩) :
    files.Keeps (run files args).files (furtherFiles ⟨path⟩) ∧
      ((run files args).exit = 0 → ∀ w ∈ furtherFiles ⟨path⟩, (run files args).files.read w.1 = .ok w.2) ∧
      (files.exists? (Path.join ⟨path⟩ ⟨Project.fileName⟩) = true →
        (run files args).exit = 1 ∧ (run files args).files = files) := by
  refine ⟨?_, fun hexit w hw => ?_, fun hexists => ?_⟩
  · rw [files_run hargs]
    exact Run.startProject_keeps ⟨path⟩ name ⟨files, ""⟩
  · obtain ⟨t, hstart, hfiles⟩ := perform_of_exit hargs hexit
    obtain ⟨l, n, -, -, hread⟩ := Run.startProject_eq_ok hstart
    rw [hfiles]
    exact hread w (List.mem_cons_of_mem _ hw)
  · have hfails : ∃ e, Run.startProject ⟨path⟩ name ⟨files, ""⟩ = (.error e, ⟨files, ""⟩) :=
      Run.startProject_of_exists name hexists
    obtain ⟨e, hstart⟩ := hfails
    rw [run_of_error hargs hstart]
    exact ⟨rfl, rfl⟩

/-- A working directory with a list of ignored files of its own, and what a new project adds to it. -/
def ignoring (ignored : String) (added : List (String × Entry)) : Files :=
  ⟨.directory [("home", .directory ((".gitignore", .file ignored.toUTF8) :: added))], ["home"]⟩

theorem readArguments_init : readArguments ["init"] = .ok ⟨Project.fileName, .init "." none⟩ := by
  refine readArguments_of_command (by simp) ?_
  simp only [readAction, Usage.read]
  rfl

def addedEntries (name : String) : List (String × Entry) :=
  [("chains", .directory [("example.chain", .file Run.exampleSource.toUTF8)]),
    (Project.fileName, .file (Run.newConfiguration name).toUTF8)]

theorem startProject_ignoring (ignored : String) (name : Option String) :
    Run.startProject ⟨"."⟩ name ⟨ignoring ignored [], ""⟩ =
      (.ok (), ⟨ignoring Run.ignoredFiles (addedEntries (name.getD "home")), ""⟩) := by
  have hexists : (ignoring ignored []).exists? ⟨"."⟩ = true := rfl
  have hname : Run.projectName ⟨"."⟩ name ⟨ignoring ignored [], ""⟩ =
      (.ok (name.getD "home"), ⟨ignoring ignored [], ""⟩) := by
    cases name <;> rfl
  have hmissing : (ignoring ignored []).exists? (Path.join ⟨"."⟩ ⟨Project.fileName⟩) = false := rfl
  have hmake : (ignoring ignored []).makeAll (Path.join ⟨"."⟩ ⟨"chains"⟩) =
      (ignoring ignored [("chains", .directory [])], .ok ()) := rfl
  have hconfiguration : ∀ bytes,
      (ignoring ignored [("chains", .directory [])]).write (Path.join ⟨"."⟩ ⟨Project.fileName⟩) bytes =
        .ok (ignoring ignored [("chains", .directory []), (Project.fileName, .file bytes)]) := fun _ => rfl
  have hexample : ∀ bytes bytes',
      (ignoring ignored [("chains", .directory []), (Project.fileName, .file bytes)]).write
        (Path.join ⟨"."⟩ ⟨"chains/example.chain"⟩) bytes' =
        .ok (ignoring ignored [("chains", .directory [("example.chain", .file bytes')]),
          (Project.fileName, .file bytes)]) := fun _ _ => rfl
  have hignored : ∀ text added, (ignoring ignored added).write (Path.join ⟨"."⟩ ⟨".gitignore"⟩) text.toUTF8 =
      .ok (ignoring text added) := fun _ _ => rfl
  have hmade := Run.makeAll_apply (Path.join ⟨"."⟩ ⟨"chains"⟩) .system ⟨ignoring ignored [], ""⟩
  rw [hmake] at hmade
  rw [Run.startProject_eq, Run.bind_of_ok _ (Run.prepare_of_exists hexists), Run.bind_of_ok _ hname,
    Run.furnish_of_missing hmissing, Run.bind_of_ok _ hmade, Run.bind_of_ok _ (Run.write_of_ok _ (hconfiguration _)),
    Run.bind_of_ok _ (Run.write_of_ok _ (hexample _ _)), Run.write_of_ok _ (hignored _ _)]
  rfl

theorem run_init_keeps_ignoring :
    (ignoring "mine" []).Keeps (run (ignoring "mine" []) ["init"]).files (furtherFiles ⟨"."⟩) ∧
      ∀ w ∈ furtherFiles ⟨"."⟩, (run (ignoring "mine" []) ["init"]).files.read w.1 = .ok w.2 := by
  have hexit : (run (ignoring "mine" []) ["init"]).exit = 0 := by
    rw [run_of_ok readArguments_init (startProject_ignoring "mine" none)]
  obtain ⟨hkeeps, hwritten, -⟩ := @run_init_keeps (ignoring "mine" []) _ _ _ _ readArguments_init
  exact ⟨hkeeps, hwritten hexit⟩

/-- A list of ignored files is lost. -/
theorem run_init_ignoring :
    (ignoring "mine" []).read ⟨".gitignore"⟩ = .ok "mine".toUTF8 ∧ (run (ignoring "mine" []) ["init"]).exit = 0 ∧
      (run (ignoring "mine" []) ["init"]).files.read ⟨".gitignore"⟩ ≠ .ok "mine".toUTF8 := by
  have hread : ∀ ignored added, (ignoring ignored added).read ⟨".gitignore"⟩ = .ok ignored.toUTF8 := fun _ _ => rfl
  rw [run_of_ok readArguments_init (startProject_ignoring "mine" none), hread, hread]
  refine ⟨rfl, rfl, fun h => ?_⟩
  have htext : Run.ignoredFiles = "mine" := String.toByteArray_inj.1 (Except.ok.inj h)
  exact absurd htext (by decide)

end Command

end ChainCompiler
