import ChainCompiler.Proofs.Command.Atomicity
import ChainCompiler.Proofs.Files.Writing

/-! A compiled project has one module for each of its sources. Nothing else becomes of the files, but that the
directories of the modules are made. -/

namespace ChainCompiler

def IsNames (l : Location) : Prop := ∀ n ∈ l, Path.IsSegment n ∧ n ≠ "." ∧ n ≠ ".."

section Names

variable {d d' : Location} {stem stem' : String}

theorem IsNames.init {n : String} (h : IsNames (d ++ [n])) : IsNames d := fun m hm => h m (by simp [hm])

theorem IsNames.last {n : String} (h : IsNames (d ++ [n])) : Path.IsSegment n ∧ n ≠ "." ∧ n ≠ ".." := h n (by simp)

theorem getLast?_module (stem : String) : (stem ++ ".js").toList.getLast? = some 's' := by
  simp

theorem isSegment_module (h : Path.IsSegment (stem ++ ".chain")) : Path.IsSegment (stem ++ ".js") := by
  have hslash := h.2
  rw [String.toList_append, List.mem_append, not_or] at hslash
  refine ⟨by simp, ?_⟩
  simp [hslash.1]

theorem changeExtension_source_inj (hstem : stem ≠ "") (hstem' : stem' ≠ "")
    (h : Path.changeExtension (stem ++ ".chain") "js" = Path.changeExtension (stem' ++ ".chain") "js") :
    stem = stem' := by
  have hdots : ∀ s : String, s ++ ".js" ≠ ".." := by
    intro s heq
    have hlast := getLast?_module s
    rw [heq] at hlast
    exact absurd hlast (by decide)
  rw [changeExtension_source hstem, changeExtension_source hstem'] at h
  split at h
  · next hdot =>
    split at h
    · next hdot' => rw [hdot, hdot']
    · exact absurd h.symm (hdots stem')
  · split at h
    · exact absurd h (hdots stem)
    · exact (String.append_left_inj _).1 h

theorem isSegment_changeExtension (hstem : stem ≠ "") (h : Path.IsSegment (stem ++ ".chain")) :
    Path.IsSegment (Path.changeExtension (stem ++ ".chain") "js") := by
  rw [changeExtension_source hstem]
  split
  · exact ⟨by decide, by decide⟩
  · exact isSegment_module h

/-- The name of a module is no name of a source. -/
theorem isSourceName_module (stem : String) : isSourceName (stem ++ ".js") = false := by
  rw [Bool.eq_false_iff]
  intro hname
  obtain ⟨stem', -, heq⟩ := isSourceName_iff.1 hname
  have hlast := getLast?_module stem
  rw [heq] at hlast
  simp at hlast

/-- The place of the module of a source before it is known that it can be written. -/
theorem withExtension_source (p : Path) (hstem : stem ≠ "") (h : IsNames (d ++ [stem ++ ".chain"])) :
    (p.below (d ++ [stem ++ ".chain"])).withExtension "js" =
      p.below (d ++ [Path.changeExtension (stem ++ ".chain") "js"]) :=
  p.withExtension_below (fun m hm => (h.init m hm).1) h.last.1 h.last.2 (isSegment_changeExtension hstem h.last.1)

end Names

namespace Files

theorem apart_below (p : Path) {d d' : Location} {n n' : String} (hd : IsNames d) (hn : Path.IsSegment n)
    (hd' : IsNames d') (hn' : Path.IsSegment n') (hne : d ++ [n] ≠ d' ++ [n']) :
    Apart (p.below (d ++ [n])) (p.below (d' ++ [n'])) := by
  intro f q bytes hreaches hreaches' hq
  obtain ⟨r, hr, hat, -⟩ := hreaches.below hq hd hn
  obtain ⟨r', hr', hat', -⟩ := hreaches'.below hq hd' hn'
  obtain rfl := hr.unique hr'
  exact hne (List.append_cancel_left (hat.symm.trans hat'))

end Files

theorem Entry.WellFormed.get? {e x : Entry} (h : e.WellFormed) {q : Location} (hq : e.get? q = some x) :
    x.WellFormed := by
  intro r es hr
  refine h (q ++ r) es ?_
  rw [Entry.get?_append, hq, Option.bind_some, hr]

namespace Command

/-- What is loaded is there. -/
theorem exists?_of_load {f : Files} {config : Path} {l : Loaded} (h : load f config = .ok l) :
    f.exists? config = true := by
  cases hdirectory : f.isDirectory config with
  | true =>
    unfold Files.isDirectory at hdirectory
    obtain ⟨e, he, -⟩ := (Option.any_eq_true ..).1 hdirectory
    rw [Files.exists?, he]
    rfl
  | false =>
    have hplace : configPlace f config = (config, config.parent?.getD ⟨"."⟩) := by
      rw [configPlace, if_neg (by simp [hdirectory])]
    rw [load, hplace] at h
    cases hexists : f.exists? config with
    | true => rfl
    | false =>
      simp only [hexists] at h
      cases h

/-- A source below a directory: a file whose name is a stem with the extension. -/
def SourceAt (e : Entry) (d : Location) (stem : String) (bytes : ByteArray) : Prop :=
  stem ≠ "" ∧ e.get? (d ++ [stem ++ ".chain"]) = some (.file bytes)

def modulePath (output : Path) (d : Location) (stem : String) : Path := output.below (d ++ [stem ++ ".js"])

/-- What becomes of the files when the sources below a directory are compiled to below an output path. -/
structure Emitted (before after : Files) (output : Path) (sources : Entry) (options : Options) : Prop where
  /-- Each source has its module. -/
  written : ∀ d stem bytes, SourceAt sources d stem bytes → ∃ text c, bytes = text.toUTF8 ∧
    (compile options (stem ++ ".chain") text).1 = .ok c ∧ after.read (modulePath output d stem) = .ok c.code.toUTF8
  /-- No two sources have one module. -/
  distinct : ∀ d stem bytes d' stem' bytes', SourceAt sources d stem bytes → SourceAt sources d' stem' bytes' →
    after.locate (modulePath output d stem) = after.locate (modulePath output d' stem') → d = d' ∧ stem = stem'
  home : after.home = before.home
  /-- Only modules and new directories above them differ from before. -/
  elsewhere : ∀ q, after.node? q = before.node? q ∨
    (before.node? q ≠ some none ∧ ∃ d stem bytes, SourceAt sources d stem bytes ∧
      after.locate (modulePath output d stem) = .ok q) ∨
    (before.node? q = none ∧ after.node? q = some none ∧ ∃ d stem bytes, SourceAt sources d stem bytes ∧
      ∃ a, (modulePath output d stem).Above a ∧ after.locate a = .ok q)
  /-- The sources are kept, wherever they are. -/
  kept : ∀ q name bytes, isSourceName name = true → before.node? (q ++ [name]) = some (some bytes) →
    after.node? (q ++ [name]) = some (some bytes)

namespace Run

variable {s t : Session} {files : Files} {options : Options} {config directory output path : Path} {debug : Bool}
  {format : Format} {ls : List Location} {modules : List (Location × Compiled)} {ds : List (Path × Diagnostic)}

/-- A written module comes after the directories above it. -/
theorem writeModule_eq_ok {c : Compiled} (h : writeModule path c s = (.ok (), t)) :
    ∃ ps k q, (∀ a ∈ ps, path.Above a) ∧ Files.Makes s.files k ps ∧
      Files.Puts k t.files path (some c.code.toUTF8) q := by
  have hwrite : ∀ u : Session, write path c.code (.notWritten path) u = (.ok (), t) →
      ∃ q, Files.Puts u.files t.files path (some c.code.toUTF8) q := by
    intro u hu
    cases hf : u.files.write path c.code.toUTF8 with
    | error e =>
      rw [write_of_error _ hf] at hu
      cases hu
    | ok g =>
      rw [write_of_ok _ hf] at hu
      cases hu
      exact Files.write_eq_ok hf
  rcases parent_cases path with hnone | ⟨parent, hparent, hne⟩
  · rw [writeModule_of_noParent c hnone] at h
    obtain ⟨q, hq⟩ := hwrite s h
    exact ⟨[], s.files, q, by simp, .refl _ _, hq⟩
  · rw [writeModule_of_parent c hparent hne, bind_eq_ok] at h
    obtain ⟨_, u, hmake, h⟩ := h
    obtain ⟨q, hq⟩ := hwrite u h
    rw [makeAll_apply, Prod.mk.injEq] at hmake
    obtain ⟨-, rfl⟩ := hmake
    exact ⟨_, _, q, fun a ha => Path.above_of_mem_ancestors (.parent hparent) ha, Files.makeAll_makes _ _, hq⟩

def target (output : Path) (m : Location × Compiled) : Path × ByteArray :=
  ((output.below m.1).withExtension "js", m.2.code.toUTF8)

theorem writeAll_writes (h : writeAll output modules s = (.ok (), t))
    (hapart : ∀ m ∈ modules, ∀ m' ∈ modules, m = m' ∨ Files.Apart (target output m).1 (target output m').1) :
    Files.Writes s.files t.files (modules.map (target output)) := by
  induction modules generalizing s with
  | nil =>
    cases h
    exact .nil _
  | cons m modules ih =>
    rw [writeAll, bind_eq_ok] at h
    obtain ⟨_, u, hmodule, h⟩ := h
    obtain ⟨ps, k, q, hps, hmakes, hputs⟩ := writeModule_eq_ok hmodule
    have hrest := ih h fun m' hm' m'' hm'' => hapart m' (by simp [hm']) m'' (by simp [hm''])
    have hothers : ∀ w ∈ modules.map (target output), target output m = w ∨ Files.Apart (target output m).1 w.1 := by
      intro w hw
      obtain ⟨m', hm', rfl⟩ := List.mem_map.1 hw
      rcases hapart m (by simp) m' (by simp [hm']) with rfl | hapart
      · exact .inl rfl
      · exact .inr hapart
    exact Files.Writes.cons hmakes hps hputs hrest hothers

/-- Each module is that of one of the sources. -/
theorem Outcomes.of_mem (h : Outcomes files options directory ls modules ds) {m : Location × Compiled}
    (hm : m ∈ modules) : m.1 ∈ ls ∧ ∃ text, files.readText (directory.below m.1) = .ok text ∧
      (compile options (sourceName (directory.below m.1)) text).1 = .ok m.2 := by
  induction h with
  | nil => cases hm
  | compiled htext hc _ ih =>
    rcases List.mem_cons.1 hm with rfl | hm
    · exact ⟨by simp, _, htext, hc⟩
    · exact ⟨by simp [(ih hm).1], (ih hm).2⟩
  | failed _ _ _ ih => exact ⟨by simp [(ih hm).1], (ih hm).2⟩

/-- Without failures each source has a module. -/
theorem Outcomes.exists_mem (h : Outcomes files options directory ls modules []) {l : Location} (hl : l ∈ ls) :
    ∃ c, (l, c) ∈ modules := by
  generalize hds : ([] : List (Path × Diagnostic)) = ds at h
  induction h with
  | nil => cases hl
  | compiled _ _ _ ih =>
    rcases List.mem_cons.1 hl with rfl | hl
    · exact ⟨_, List.mem_cons_self⟩
    · obtain ⟨c, hc⟩ := ih hl hds
      exact ⟨c, List.mem_cons_of_mem _ hc⟩
  | failed => cases hds

/-- A location has one module. -/
theorem Outcomes.unique (h : Outcomes files options directory ls modules ds) {m m' : Location × Compiled}
    (hm : m ∈ modules) (hm' : m' ∈ modules) (heq : m.1 = m'.1) : m = m' := by
  obtain ⟨-, text, htext, hc⟩ := h.of_mem hm
  obtain ⟨-, text', htext', hc'⟩ := h.of_mem hm'
  rw [← heq, htext] at htext'
  cases htext'
  rw [← heq, hc] at hc'
  exact Prod.ext heq (Except.ok.inj hc')

/-- When all sources of a project are compiled, their modules are written. -/
theorem compileProject_of_outcomes {l : Loaded} (hload : load s.files config = .ok l)
    (hls : s.files.sources? l.sources = some ls)
    (hout : Outcomes s.files (l.project.target.options debug) l.sources ls modules []) :
    compileProject config debug format s = writeAll l.output modules s := by
  have hall : compileAll (l.project.target.options debug) l.sources format ls s = (.ok (modules, 0), s) := by
    simpa [reportLines] using hout.compileAll_eq format rfl
  rw [compileProject_eq hload hls, bind_of_ok _ hall, if_neg (by simp)]

/-- A project is compiled when all its sources are. -/
theorem compileProject_eq_ok (h : compileProject config debug format s = (.ok (), t)) :
    ∃ l ls modules, load s.files config = .ok l ∧ s.files.sources? l.sources = some ls ∧
      Outcomes s.files (l.project.target.options debug) l.sources ls modules [] ∧
      writeAll l.output modules s = (.ok (), t) := by
  have hfine : ¬ Faulty s.files config none := by
    intro hfaulty
    have hrefused : Refused (compileProject config debug format) s := compileProject_refused hfaulty
    obtain ⟨f, text, hrun⟩ := hrefused
    rw [h] at hrun
    cases hrun
  cases hload : load s.files config with
  | error e => exact absurd (.configuration hload (.inl rfl)) hfine
  | ok l =>
    cases hls : s.files.sources? l.sources with
    | none =>
      obtain ⟨e, he⟩ := Files.sources?_eq_none_iff.1 hls
      exact absurd (.of_search hload he) hfine
    | some ls =>
      have hread : ∀ loc ∈ ls, ∃ text, s.files.readText (l.sources.below loc) = .ok text := by
        intro loc hloc
        cases htext : s.files.readText (l.sources.below loc) with
        | ok text => exact ⟨text, rfl⟩
        | error e => exact absurd (.unreadable (.found hload hls hloc) htext) hfine
      obtain ⟨modules, ds, hout⟩ := exists_outcomes (l.project.target.options debug) hread
      cases ds with
      | nil =>
        rw [compileProject_of_outcomes hload hls hout] at h
        exact ⟨l, ls, modules, rfl, hls, hout, h⟩
      | cons d ds =>
        rw [compileProject_eq hload hls, bind_of_ok _ (hout.compileAll_eq format rfl), if_pos (by simp)] at h
        cases h

/-- A source is named for its file, by whichever path it is found. -/
theorem sourceName_of_reaches {q : Location} {n : String} {bytes : ByteArray} (h : files.Reaches path (q ++ [n]))
    (hfile : files.node? (q ++ [n]) = some (some bytes)) : sourceName path = n := by
  obtain ⟨init, r, m, hsegments, hm, hlast⟩ := h.last hfile
  obtain rfl := List.singleton_inj.1 (List.append_inj' hlast rfl).2
  rw [sourceName, Path.fileName?_of_segments hsegments ⟨hm.1, hm.2.1, hm.2.2.1⟩]
  rfl

/-- What is read from below the sources directory is the file there, and its name is the last one. -/
theorem source_of_readText {l : Loaded} {sources : Entry} {place d : Location} {stem : String} {bytes : ByteArray}
    (hplace : files.Reaches l.sources place) (hget : files.root.get? place = some sources)
    (hnames : IsNames (d ++ [stem ++ ".chain"])) (hsource : SourceAt sources d stem bytes) {text : String}
    (htext : files.readText (l.sources.below (d ++ [stem ++ ".chain"])) = .ok text) :
    bytes = text.toUTF8 ∧ sourceName (l.sources.below (d ++ [stem ++ ".chain"])) = stem ++ ".chain" := by
  obtain ⟨q, hq, hfile⟩ := Files.read_eq_ok_iff.1 (Files.readText_eq_ok htext)
  obtain ⟨r, hr, rfl, -⟩ := hq.below hfile hnames.init hnames.last.1
  obtain rfl := hr.unique hplace.front
  have hat := Entry.node?_eq_file hfile
  rw [Entry.get?_append, hget, Option.bind_some, hsource.2] at hat
  cases hat
  rw [← List.append_assoc] at hq hfile
  exact ⟨rfl, sourceName_of_reaches hq hfile⟩

end Run

theorem mem_sourcesAmong_iff_sourceAt {e : Entry} (h : e.WellFormed) (he : e.isDirectory = true) {loc : Location} :
    loc ∈ sourcesAmong e.descendants ↔ ∃ d stem bytes, loc = d ++ [stem ++ ".chain"] ∧ SourceAt e d stem bytes := by
  rw [mem_sourcesAmong h he, isSource, Option.any_eq_true]
  constructor
  · rintro ⟨⟨bytes, hfile⟩, name, hlast, hname⟩
    obtain ⟨stem, hstem, rfl⟩ := isSourceName_iff.1 hname
    obtain ⟨d, rfl⟩ := List.getLast?_eq_some_iff.1 hlast
    exact ⟨d, stem, bytes, rfl, hstem, hfile⟩
  · rintro ⟨d, stem, bytes, rfl, hstem, hfile⟩
    exact ⟨⟨bytes, hfile⟩, _, by simp, isSourceName_iff.2 ⟨stem, hstem, rfl⟩⟩

section Emitted

variable {before after : Files} {output : Path} {sources : Entry} {options : Options}

/-- The modules of two sources are in one place only if it is one source. -/
theorem eq_of_locate {d d' : Location} {stem stem' : String} {code : ByteArray}
    (hn : IsNames (d ++ [stem ++ ".chain"])) (hn' : IsNames (d' ++ [stem' ++ ".chain"]))
    (hread : after.read (modulePath output d stem) = .ok code)
    (h : after.locate (modulePath output d stem) = after.locate (modulePath output d' stem')) :
    d = d' ∧ stem = stem' := by
  obtain ⟨q, hq, hfile⟩ := Files.read_eq_ok_iff.1 hread
  have hq' : after.Reaches (modulePath output d' stem') q := by
    rw [← Files.locate_eq_ok_iff, ← h, Files.locate_eq_ok_iff]
    exact hq
  have heq : d ++ [stem ++ ".js"] = d' ++ [stem' ++ ".js"] := by
    by_contra hne
    exact Files.apart_below output hn.init (isSegment_module hn.last.1) hn'.init (isSegment_module hn'.last.1) hne
      after q _ hq hq' hfile
  obtain ⟨hd, hlast⟩ := List.append_inj' heq rfl
  exact ⟨hd, (String.append_left_inj _).1 (List.singleton_inj.1 hlast)⟩

/-- A file in the place of a module has the name of one. -/
theorem eq_module_of_reaches {d q : Location} {stem name : String} {code : ByteArray}
    (hn : IsNames (d ++ [stem ++ ".chain"])) (hq : after.Reaches (modulePath output d stem) (q ++ [name]))
    (hfile : after.node? (q ++ [name]) = some (some code)) : name = stem ++ ".js" := by
  obtain ⟨r, -, hat, -⟩ := hq.below hfile hn.init (isSegment_module hn.last.1)
  rw [← List.append_assoc] at hat
  exact List.singleton_inj.1 (List.append_inj' hat rfl).2

/-- Writing the modules of the sources, all of them and nothing else, is all that is needed. -/
theorem emitted_of_writes {ws : List (Path × ByteArray)}
    (hnames : ∀ d stem bytes, SourceAt sources d stem bytes → IsNames (d ++ [stem ++ ".chain"]))
    (hwrites : before.Writes after ws)
    (hall : ∀ d stem bytes, SourceAt sources d stem bytes → ∃ text c, bytes = text.toUTF8 ∧
      (compile options (stem ++ ".chain") text).1 = .ok c ∧ (modulePath output d stem, c.code.toUTF8) ∈ ws)
    (honly : ∀ w ∈ ws, ∃ d stem bytes, SourceAt sources d stem bytes ∧ w.1 = modulePath output d stem) :
    Emitted before after output sources options where
  written := by
    intro d stem bytes hsource
    obtain ⟨text, c, hbytes, hc, hw⟩ := hall d stem bytes hsource
    have hread := hwrites.read _ hw
    exact ⟨text, c, hbytes, hc, hread⟩
  distinct := by
    intro d stem bytes d' stem' bytes' hsource hsource' hlocate
    obtain ⟨text, c, hbytes, hc, hw⟩ := hall d stem bytes hsource
    have hread := hwrites.read _ hw
    exact eq_of_locate (hnames _ _ _ hsource) (hnames _ _ _ hsource') hread hlocate
  home := hwrites.home
  elsewhere := by
    intro q
    rcases hwrites.node? q with hsame | ⟨hold, w, hw, hq⟩ | ⟨hnone, hnew, w, hw, a, ha, hq⟩
    · exact .inl hsame
    · obtain ⟨d, stem, bytes, hsource, hpath⟩ := honly w hw
      rw [hpath, ← Files.locate_eq_ok_iff] at hq
      exact .inr (.inl ⟨hold, d, stem, bytes, hsource, hq⟩)
    · obtain ⟨d, stem, bytes, hsource, hpath⟩ := honly w hw
      rw [hpath] at ha
      exact .inr (.inr ⟨hnone, hnew, d, stem, bytes, hsource, a, ha, Files.locate_eq_ok_iff.2 hq⟩)
  kept := by
    intro q name bytes hname hbefore
    rcases hwrites.node? (q ++ [name]) with hsame | ⟨-, w, hw, hq⟩ | ⟨hnone, -⟩
    · rw [hsame, hbefore]
    · obtain ⟨d, stem, bytes', hsource, hpath⟩ := honly w hw
      have hfile := hwrites.node?_of_reaches hw hq
      rw [hpath] at hq
      rw [eq_module_of_reaches (hnames _ _ _ hsource) hq hfile, isSourceName_module] at hname
      cases hname
    · rw [hnone] at hbefore
      cases hbefore

end Emitted

namespace Run

variable {s t : Session} {config output path : Path} {debug : Bool} {format : Format} {d d' : Location}
  {stem stem' : String} {c c' : Compiled}

theorem apart_target (output : Path) (hstem : stem ≠ "") (hstem' : stem' ≠ "")
    (hn : IsNames (d ++ [stem ++ ".chain"])) (hn' : IsNames (d' ++ [stem' ++ ".chain"]))
    (hne : d ++ [stem ++ ".chain"] ≠ d' ++ [stem' ++ ".chain"]) :
    Files.Apart (target output (d ++ [stem ++ ".chain"], c)).1 (target output (d' ++ [stem' ++ ".chain"], c')).1 := by
  rw [target, target, withExtension_source output hstem hn, withExtension_source output hstem' hn']
  refine Files.apart_below output hn.init (isSegment_changeExtension hstem hn.last.1) hn'.init
    (isSegment_changeExtension hstem' hn'.last.1) fun heq => hne ?_
  obtain ⟨rfl, hlast⟩ := List.append_inj' heq rfl
  rw [changeExtension_source_inj hstem hstem' (List.singleton_inj.1 hlast)]

/-- A module that can be read is where it belongs: the name that has no such module cannot be written to. -/
theorem target_of_read {files : Files} {code : ByteArray} (hstem : stem ≠ "") (hn : IsNames (d ++ [stem ++ ".chain"]))
    (hread : files.read (target output (d ++ [stem ++ ".chain"], c)).1 = .ok code) :
    (target output (d ++ [stem ++ ".chain"], c)).1 = modulePath output d stem := by
  rw [target, withExtension_source output hstem hn] at hread ⊢
  obtain ⟨q, hq, hfile⟩ := Files.read_eq_ok_iff.1 hread
  obtain ⟨-, -, -, hname⟩ := hq.below hfile hn.init (isSegment_changeExtension hstem hn.last.1)
  rw [changeExtension_source hstem] at hname ⊢
  split at hname
  · exact absurd rfl hname.2.2.1
  · next hdot =>
    rw [if_neg hdot]
    rfl

/-- A project that is compiled gets its modules. -/
theorem compileProject_emits (hwf : s.files.root.WellFormed)
    (h : compileProject config debug format s = (.ok (), t)) :
    ∃ l place sources, load s.files config = .ok l ∧ s.files.Reaches l.sources place ∧
      s.files.root.get? place = some sources ∧ sources.isDirectory = true ∧
      Emitted s.files t.files l.output sources (l.project.target.options debug) := by
  obtain ⟨l, ls, modules, hload, hls, hout, hwrite⟩ := compileProject_eq_ok h
  obtain ⟨sources, hentry, hdirectory, rfl⟩ := Files.sources?_eq_some hls
  obtain ⟨place, hplace, hget⟩ := Files.entry?_eq_some_iff.1 hentry
  have hsources := hwf.get? hget
  have hnames : ∀ d stem bytes, SourceAt sources d stem bytes → IsNames (d ++ [stem ++ ".chain"]) :=
    fun _ _ _ hsource => hsources.names hsource.2
  have hmodule : ∀ m ∈ modules, ∃ d stem bytes, m.1 = d ++ [stem ++ ".chain"] ∧ SourceAt sources d stem bytes :=
    fun m hm => (mem_sourcesAmong_iff_sourceAt hsources hdirectory).1 (hout.of_mem hm).1
  have hwrites : s.files.Writes t.files (modules.map (target l.output)) := by
    refine writeAll_writes hwrite fun m hm m' hm' => ?_
    by_cases heq : m.1 = m'.1
    · exact .inl (hout.unique hm hm' heq)
    · obtain ⟨d, stem, bytes, hd, hsource⟩ := hmodule m hm
      obtain ⟨d', stem', bytes', hd', hsource'⟩ := hmodule m' hm'
      obtain ⟨loc, c⟩ := m
      obtain ⟨loc', c'⟩ := m'
      subst hd hd'
      exact .inr (apart_target l.output hsource.1 hsource'.1 (hnames _ _ _ hsource) (hnames _ _ _ hsource') heq)
  have htarget : ∀ d stem bytes c, SourceAt sources d stem bytes → (d ++ [stem ++ ".chain"], c) ∈ modules →
      (target l.output (d ++ [stem ++ ".chain"], c)).1 = modulePath l.output d stem := by
    intro d stem bytes c hsource hm
    have hread := hwrites.read _ (List.mem_map_of_mem hm)
    exact target_of_read hsource.1 (hnames _ _ _ hsource) hread
  refine ⟨l, place, sources, hload, hplace, hget, hdirectory, emitted_of_writes hnames hwrites ?_ ?_⟩
  · intro d stem bytes hsource
    have hloc := (mem_sourcesAmong_iff_sourceAt hsources hdirectory).2 ⟨d, stem, bytes, rfl, hsource⟩
    obtain ⟨c, hm⟩ := hout.exists_mem hloc
    obtain ⟨-, text, htext, hc⟩ := hout.of_mem hm
    obtain ⟨hbytes, hname⟩ := source_of_readText hplace hget (hnames _ _ _ hsource) hsource htext
    rw [hname] at hc
    refine ⟨text, c, hbytes, hc, ?_⟩
    rw [← htarget d stem bytes c hsource hm]
    exact List.mem_map_of_mem hm
  · intro w hw
    obtain ⟨⟨loc, c⟩, hm, rfl⟩ := List.mem_map.1 hw
    obtain ⟨d, stem, bytes, hd, hsource⟩ := hmodule _ hm
    subst hd
    exact ⟨d, stem, bytes, hsource, htarget d stem bytes c hsource hm⟩

/-- One source that is compiled under a configuration gets its module, too. -/
theorem compileFile_eq_ok {l : Loaded} {output : Option Path} (hload : load s.files config = .ok l)
    (h : compileFile config path output debug format s = (.ok (), t)) :
    ∃ text c, s.files.readText path = .ok text ∧
      (compile (l.project.target.options debug) (sourceName path) text).1 = .ok c ∧
      t.files.read (output.getD (path.withExtension "js")) = .ok c.code.toUTF8 := by
  have htarget : targetFor config s = (.ok l.project.target, s) := by
    rw [targetFor_of_exists (exists?_of_load hload), hload]
    rfl
  rw [compileFile, bind_of_ok _ htarget] at h
  cases htext : s.files.readText path with
  | error e =>
    rw [bind_of_error _ (compileSource_of_error _ htext)] at h
    cases h
  | ok text =>
    rw [bind_of_ok _ (compileSource_of_ok _ htext)] at h
    cases hc : (compile (l.project.target.options debug) (sourceName path) text).1 with
    | error e =>
      rw [hc] at h
      obtain ⟨_, u, -, hthrow⟩ := bind_eq_ok.1 h
      cases hthrow
    | ok c =>
      rw [hc] at h
      obtain ⟨ps, k, q, -, -, hputs⟩ := writeModule_eq_ok h
      refine ⟨text, c, rfl, hc, Files.read_eq_ok_iff.2 ⟨q, hputs.reaches, ?_⟩⟩
      rw [hputs.node?, if_pos rfl]

/-- A source that is found by another path gets the same module. -/
theorem read_eq_of_compileFile {l : Loaded} {sources : Entry} {place d : Location} {bytes : ByteArray}
    {after : Files} {output' : Option Path} (hload : load s.files config = .ok l)
    (hget : s.files.root.get? place = some sources) (hsource : SourceAt sources d stem bytes)
    (hemitted : Emitted s.files after output sources (l.project.target.options debug))
    (hpath : s.files.Reaches path (place ++ (d ++ [stem ++ ".chain"])))
    (h : compileFile config path output' debug format s = (.ok (), t)) :
    t.files.read (output'.getD (path.withExtension "js")) = after.read (modulePath output d stem) := by
  obtain ⟨text, c, hbytes, hc, hread⟩ := hemitted.written d stem bytes hsource
  obtain ⟨text', c', htext', hc', hread'⟩ := compileFile_eq_ok hload h
  obtain ⟨q, hq, hfile⟩ := Files.read_eq_ok_iff.1 (Files.readText_eq_ok htext')
  obtain rfl := hq.unique hpath
  obtain rfl : text = text' := by
    have hat := Entry.node?_eq_file hfile
    rw [Entry.get?_append, hget, Option.bind_some, hsource.2, hbytes] at hat
    injection Option.some.inj hat with hutf8
    exact String.toByteArray_inj.1 hutf8
  rw [← List.append_assoc] at hq hfile
  rw [sourceName_of_reaches hq hfile, hc] at hc'
  rw [hread, hread', Except.ok.inj hc']

end Run

/-- With exit code 0, the invocation was done. -/
theorem perform_of_exit {files : Files} {args : List String} {i : Invocation} (hargs : readArguments args = .ok i)
    (h : (run files args).exit = 0) : ∃ t, perform i ⟨files, ""⟩ = (.ok (), t) ∧ (run files args).files = t.files := by
  rcases hrun : perform i ⟨files, ""⟩ with ⟨f | _, t⟩
  · rw [run_of_error hargs hrun] at h
    cases h
  · rw [run_of_ok hargs hrun]
    exact ⟨t, rfl, rfl⟩

/-- A compiled project has one module for each of its sources: the one that compiling the source alone writes. Nothing
else becomes of the files, but that the directories of the modules are made. -/
theorem run_compile_project {files : Files} {args : List String} {config : String} {output : Option String}
    {debug : Bool} {format : Format} (hwf : files.root.WellFormed)
    (hargs : readArguments args = .ok ⟨config, .compile none output debug format⟩)
    (hexit : (run files args).exit = 0) :
    ∃ l place sources, load files ⟨config⟩ = .ok l ∧ files.locate l.sources = .ok place ∧
      files.root.get? place = some sources ∧ sources.isDirectory = true ∧
      Emitted files (run files args).files l.output sources (l.project.target.options debug) ∧
      ∀ d stem bytes, SourceAt sources d stem bytes → ∀ args' path output' format',
        readArguments args' = .ok ⟨config, .compile (some path) output' debug format'⟩ →
        files.locate ⟨path⟩ = .ok (place ++ (d ++ [stem ++ ".chain"])) → (run files args').exit = 0 →
        (run files args').files.read ((output'.map Path.mk).getD (Path.withExtension ⟨path⟩ "js")) =
          (run files args).files.read (modulePath l.output d stem) := by
  obtain ⟨t, hperform, hfiles⟩ := perform_of_exit hargs hexit
  obtain ⟨l, place, sources, hload, hplace, hget, hdirectory, hemitted⟩ := Run.compileProject_emits hwf hperform
  rw [hfiles]
  refine ⟨l, place, sources, hload, Files.locate_eq_ok_iff.2 hplace, hget, hdirectory, hemitted, ?_⟩
  intro d stem bytes hsource args' path output' format' hargs' hpath hexit'
  obtain ⟨t', hperform', hfiles'⟩ := perform_of_exit hargs' hexit'
  rw [hfiles']
  exact Run.read_eq_of_compileFile hload hget hsource hemitted (Files.locate_eq_ok_iff.1 hpath) hperform'

/-- A project with one source beside another one's directory, and what is between the sources and the configuration. -/
def nested (between : List (String × Entry)) : Files :=
  ⟨.directory ([("chains", .directory [("deep", .directory [("b.chain", .file "def b = a".toUTF8)]),
    ("z.chain", .file "def a = b".toUTF8)])] ++ between ++ [("linklang.yaml", .file "name: p".toUTF8)]), []⟩

theorem wellFormed_nested : (nested []).root.WellFormed := by
  have hdeep : Entry.WellFormed (.directory [("b.chain", .file "def b = a".toUTF8)]) :=
    Entry.wellFormed_directory (by decide) (by decide +kernel)
      (List.forall_mem_singleton.2 (Entry.wellFormed_file _))
  have hchains : Entry.WellFormed (.directory [("deep", .directory [("b.chain", .file "def b = a".toUTF8)]),
      ("z.chain", .file "def a = b".toUTF8)]) :=
    Entry.wellFormed_directory (by decide) (by decide +kernel)
      (List.forall_mem_cons.2 ⟨hdeep, List.forall_mem_singleton.2 (Entry.wellFormed_file _)⟩)
  exact Entry.wellFormed_directory (by decide) (by decide +kernel)
    (List.forall_mem_cons.2 ⟨hchains, List.forall_mem_singleton.2 (Entry.wellFormed_file _)⟩)

def nestedProject : Loaded := ⟨⟨"p", "0.1.0", "chains", "dist", .standard⟩, ⟨""⟩⟩

theorem load_nested : load (nested []) ⟨"linklang.yaml"⟩ = .ok nestedProject := by
  have hproject : Project.ofText "name: p" = .ok ⟨"p", "0.1.0", "chains", "dist", .standard⟩ := by decide +kernel
  have hconfig : (nested []).readText ⟨"linklang.yaml"⟩ = .ok "name: p" := Files.readText_of_read rfl
  exact load_of_file rfl rfl hconfig hproject

theorem sources?_nested : (nested []).sources? nestedProject.sources = some [["deep", "b.chain"], ["z.chain"]] := by
  have hentry : Files.entry? (nested []) nestedProject.sources = some (.directory
      [("deep", .directory [("b.chain", .file "def b = a".toUTF8)]), ("z.chain", .file "def a = b".toUTF8)]) := rfl
  have hdeep : (Entry.directory [("b.chain", .file "def b = a".toUTF8)]).descendants =
      [(["b.chain"], .file "def b = a".toUTF8)] := by
    rw [Entry.descendants_of_pairwise (by simp)]
    simp [Entry.descendantsAt_eq, Entry.descendants_file]
  rw [Files.sources?_eq_some_iff, Files.search_of_entry hentry, Entry.descendants_of_pairwise (by simp)]
  simp only [List.flatMap_cons, List.flatMap_nil, Entry.descendantsAt_eq, Entry.descendants_file, hdeep]
  rfl

theorem exists_compiled (name text : String) (h : (compile (Target.standard.options false) name text).1.toBool = true) :
    ∃ c, (compile (Target.standard.options false) name text).1 = .ok c := by
  cases hc : (compile (Target.standard.options false) name text).1 with
  | ok c => exact ⟨c, rfl⟩
  | error e =>
    rw [hc] at h
    cases h

theorem writeAll_nested (c c' : Compiled) :
    ∃ t, Run.writeAll ⟨"dist"⟩ [(["deep", "b.chain"], c), (["z.chain"], c')] ⟨nested [], ""⟩ = (.ok (), t) := by
  have hdeep : Run.writeModule ⟨"dist/deep/b.js"⟩ c ⟨nested [], ""⟩ =
      (.ok (), ⟨nested [("dist", .directory [("deep", .directory [("b.js", .file c.code.toUTF8)])])], ""⟩) := by
    have hparent : Path.parent? ⟨"dist/deep/b.js"⟩ = some ⟨"dist/deep"⟩ := rfl
    exact Run.writeModule_of_steps (f := nested [("dist", .directory [("deep", .directory [])])]) hparent rfl rfl rfl
  have hbeside : ∀ bytes, Run.writeModule ⟨"dist/z.js"⟩ c'
      ⟨nested [("dist", .directory [("deep", .directory [("b.js", .file bytes)])])], ""⟩ = (.ok (), ⟨nested
        [("dist", .directory [("deep", .directory [("b.js", .file bytes)]), ("z.js", .file c'.code.toUTF8)])], ""⟩) := by
    intro bytes
    have hparent : Path.parent? ⟨"dist/z.js"⟩ = some ⟨"dist"⟩ := rfl
    refine Run.writeModule_of_steps hparent rfl rfl ?_
    have htarget : (nested [("dist", .directory [("deep", .directory [("b.js", .file bytes)])])]).target ⟨"dist/z.js"⟩ =
        .ok ⟨["dist"], [("deep", .directory [("b.js", .file bytes)])], some "z.js", false⟩ := rfl
    rw [Files.write, htarget]
    rfl
  have hpath : (Path.below ⟨"dist"⟩ ["deep", "b.chain"]).withExtension "js" = ⟨"dist/deep/b.js"⟩ := rfl
  have hpath' : (Path.below ⟨"dist"⟩ ["z.chain"]).withExtension "js" = ⟨"dist/z.js"⟩ := rfl
  rw [Run.writeAll, hpath, Run.bind_of_ok _ hdeep, Run.writeAll, hpath', Run.bind_of_ok _ (hbeside _)]
  exact ⟨_, rfl⟩

theorem compileProject_nested :
    ∃ t, Run.compileProject ⟨"linklang.yaml"⟩ false .text ⟨nested [], ""⟩ = (.ok (), t) := by
  obtain ⟨c, hc⟩ := exists_compiled "b.chain" "def b = a" (by decide +kernel)
  obtain ⟨c', hc'⟩ := exists_compiled "z.chain" "def a = b" (by decide +kernel)
  have hout : Run.Outcomes (nested []) (nestedProject.project.target.options false) nestedProject.sources
      [["deep", "b.chain"], ["z.chain"]] [(["deep", "b.chain"], c), (["z.chain"], c')] [] :=
    .compiled (Files.readText_of_read rfl) hc (.compiled (Files.readText_of_read rfl) hc' .nil)
  rw [Run.compileProject_of_outcomes (s := ⟨nested [], ""⟩) load_nested sources?_nested hout]
  exact writeAll_nested c c'

theorem run_compile_project_nested :
    (nested []).root.WellFormed ∧ (run (nested []) ["compile"]).exit = 0 ∧
      (∃ c, (compile (Target.standard.options false) "b.chain" "def b = a").1 = .ok c ∧
        (run (nested []) ["compile"]).files.read ⟨"dist/deep/b.js"⟩ = .ok c.code.toUTF8) ∧
      ∃ c, (compile (Target.standard.options false) "z.chain" "def a = b").1 = .ok c ∧
        (run (nested []) ["compile"]).files.read ⟨"dist/z.js"⟩ = .ok c.code.toUTF8 := by
  have hexit : (run (nested []) ["compile"]).exit = 0 := by
    obtain ⟨t, ht⟩ := compileProject_nested
    rw [run_of_ok readArguments_compile ht]
  obtain ⟨l, place, sources, hload, hplace, hget, -, hemitted, -⟩ :=
    run_compile_project wellFormed_nested readArguments_compile hexit
  obtain rfl := Except.ok.inj (load_nested.symm.trans hload)
  have hlocate : (nested []).locate nestedProject.sources = .ok ["chains"] := rfl
  have hpath : modulePath nestedProject.output ["deep"] "b" = ⟨"dist/deep/b.js"⟩ := rfl
  have hpath' : modulePath nestedProject.output [] "z" = ⟨"dist/z.js"⟩ := rfl
  obtain rfl := Except.ok.inj (hlocate.symm.trans hplace)
  cases hget
  obtain ⟨text, c, hbytes, hc, hread⟩ := hemitted.written ["deep"] "b" _ ⟨by decide, rfl⟩
  obtain ⟨text', c', hbytes', hc', hread'⟩ := hemitted.written [] "z" _ ⟨by decide, rfl⟩
  rw [hpath] at hread
  rw [hpath'] at hread'
  obtain rfl : "def b = a" = text := String.toByteArray_inj.1 hbytes
  obtain rfl : "def a = b" = text' := String.toByteArray_inj.1 hbytes'
  exact ⟨wellFormed_nested, hexit, ⟨c, hc, hread⟩, c', hc', hread'⟩

end Command

end ChainCompiler
