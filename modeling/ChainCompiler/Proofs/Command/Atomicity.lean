import ChainCompiler.Proofs.Command.Running
import ChainCompiler.Proofs.Compiling
import ChainCompiler.Proofs.Files.Sources

/-! Compiling is all or nothing. As long as something stands in the way of compiling all that is to be compiled, no file
and no directory is touched, and each source that fails is reported once. -/

namespace ChainCompiler.Command

namespace Run

/-- What becomes of the sources at some locations below a directory: the modules of those that are compiled, and the
diagnostics of the others, in order. -/
inductive Outcomes (files : Files) (options : Options) (directory : Path) :
    List Location → List (Location × Compiled) → List (Path × Diagnostic) → Prop
  | nil : Outcomes files options directory [] [] []
  | compiled {l ls text c modules ds} :
      files.readText (directory.below l) = .ok text →
      (compile options (sourceName (directory.below l)) text).1 = .ok c →
      Outcomes files options directory ls modules ds →
      Outcomes files options directory (l :: ls) ((l, c) :: modules) ds
  | failed {l ls text e modules ds} :
      files.readText (directory.below l) = .ok text →
      (compile options (sourceName (directory.below l)) text).1 = .error e →
      Outcomes files options directory ls modules ds →
      Outcomes files options directory (l :: ls) modules ((directory.below l, e.diagnostic) :: ds)

def reportLines (format : Format) (ds : List (Path × Diagnostic)) : String :=
  String.join (ds.map fun d => reportLine d.1 d.2 format)

variable {options : Options} {directory : Path} {format : Format} {ls : List Location}

theorem exists_outcomes (options : Options) {files : Files}
    (h : ∀ l ∈ ls, ∃ text, files.readText (directory.below l) = .ok text) :
    ∃ modules ds, Outcomes files options directory ls modules ds := by
  induction ls with
  | nil => exact ⟨[], [], .nil⟩
  | cons l ls ih =>
    obtain ⟨⟨text, htext⟩, hrest⟩ := List.forall_mem_cons.1 h
    obtain ⟨modules, ds, hout⟩ := ih hrest
    cases hc : (compile options (sourceName (directory.below l)) text).1 with
    | ok c => exact ⟨_, _, .compiled htext hc hout⟩
    | error e => exact ⟨_, _, .failed htext hc hout⟩

/-- The failures are reported and counted. Reports leave the files as they are, so the next source is read from the same
files. -/
theorem Outcomes.compileAll_eq {files : Files} {modules : List (Location × Compiled)} {ds : List (Path × Diagnostic)}
    (h : Outcomes files options directory ls modules ds) (format : Format) {s : Session} (hfiles : s.files = files) :
    compileAll options directory format ls s = (.ok (modules, ds.length), s.printing (reportLines format ds)) := by
  induction h generalizing s with
  | nil => simp [reportLines, compileAll]
  | compiled htext hc _ ih =>
    rw [← hfiles] at htext
    rw [compileAll, bind_of_ok _ (compileSource_of_ok options htext), hc]
    exact bind_of_ok _ (ih hfiles)
  | @failed l ls text e modules ds htext hc _ ih =>
    rw [← hfiles] at htext
    have hreport := report_apply (directory.below l) e.diagnostic format s
    have hrest := ih (s := s.printing (reportLine (directory.below l) e.diagnostic format)) hfiles
    rw [compileAll, bind_of_ok _ (compileSource_of_ok options htext), hc]
    refine (bind_of_ok _ hreport).trans ((bind_of_ok _ hrest).trans ?_)
    simp [reportLines]

def Refused {α : Type} (x : Run α) (s : Session) : Prop := ∃ f text, x s = (.error f, s.printing text)

namespace Refused

variable {α β : Type} {x : Run α} {f : α → Run β} {s : Session}

theorem bind (h : Refused x s) : Refused (x >>= f) s := by
  obtain ⟨e, text, hx⟩ := h
  exact ⟨e, text, bind_of_error f hx⟩

theorem after {a : α} {text : String} (hx : x s = (.ok a, s.printing text)) (h : Refused (f a) (s.printing text)) :
    Refused (x >>= f) s := by
  obtain ⟨e, text', hf⟩ := h
  refine ⟨e, text ++ text', ?_⟩
  rw [bind_of_ok f hx, hf, Session.printing_printing]

/-- After a step that has no effect. -/
theorem after_pure {a : α} (hx : x s = (.ok a, s)) (h : Refused (f a) s) : Refused (x >>= f) s := by
  obtain ⟨e, text, hf⟩ := h
  exact ⟨e, text, by rw [bind_of_ok f hx, hf]⟩

theorem of_eq {y : Run α} (h : x s = y s) (hy : Refused y s) : Refused x s := by
  obtain ⟨e, text, hy⟩ := hy
  exact ⟨e, text, h.trans hy⟩

theorem of_error {e : Failure} (h : x s = (.error e, s)) : Refused x s := ⟨e, "", by simpa using h⟩

end Refused

/-- A source that cannot be read ends it, whatever was reported before. -/
theorem compileAll_refused {s : Session} {l : Location} {e : ReadError} (hl : l ∈ ls)
    (h : s.files.readText (directory.below l) = .error e) : Refused (compileAll options directory format ls) s := by
  induction ls generalizing s with
  | nil => cases hl
  | cons l' ls ih =>
    rw [compileAll]
    cases htext : s.files.readText (directory.below l') with
    | error e' => exact .bind (.of_error (compileSource_of_error options htext))
    | ok text =>
      have hl : l ∈ ls := by
        rcases List.mem_cons.1 hl with rfl | hl
        · rw [h] at htext
          cases htext
        · exact hl
      refine .after_pure (compileSource_of_ok options htext) ?_
      cases hc : (compile options (sourceName (directory.below l')) text).1 with
      | ok c => exact .bind (ih hl h)
      | error e' => exact .after (report_apply _ _ _ s) (.bind (ih hl h))

section Quiet

def Quiet {α : Type} (x : Run α) : Prop := ∀ s, (x s).2.output = s.output

variable {α β : Type} {x : Run α} {f : α → Run β}

theorem Quiet.bind (hx : Quiet x) (hf : ∀ a, Quiet (f a)) : Quiet (x >>= f) := by
  intro s
  have hs := hx s
  rcases h : x s with ⟨e | a, t⟩
  · rw [bind_of_error f h]
    rwa [h] at hs
  · rw [bind_of_ok f h, hf a t]
    rwa [h] at hs

theorem quiet_pure (a : α) : Quiet (pure a : Run α) := fun _ => rfl

theorem quiet_makeAll (path : Path) (failure : SystemError → Failure) : Quiet (makeAll path failure) := by
  intro s
  rw [makeAll_apply]

theorem quiet_write (path : Path) (text : String) (failure : SystemError → Failure) :
    Quiet (write path text failure) := by
  intro s
  cases h : s.files.write path text.toUTF8 with
  | ok f => rw [write_of_ok _ h]
  | error e => rw [write_of_error _ h]

theorem quiet_writeModule (path : Path) (c : Compiled) : Quiet (writeModule path c) := by
  rcases parent_cases path with hnone | ⟨parent, hparent, hne⟩
  · rw [writeModule_of_noParent c hnone]
    exact quiet_write _ _ _
  · rw [writeModule_of_parent c hparent hne]
    exact .bind (quiet_makeAll _ _) fun _ => quiet_write _ _ _

theorem quiet_writeAll (directory : Path) (modules : List (Location × Compiled)) :
    Quiet (writeAll directory modules) := by
  induction modules with
  | nil => exact quiet_pure ()
  | cons m modules ih => exact .bind (quiet_writeModule _ _) fun _ => ih

end Quiet

end Run

/-- A source that is to be compiled: the given one, or any below the sources directory of the project. -/
inductive ToCompile (files : Files) (config : Path) : Option Path → Path → Prop
  | given {path} : ToCompile files config (some path) path
  | found {l ls loc} :
      load files config = .ok l → files.sources? l.sources = some ls → loc ∈ ls →
      ToCompile files config none (l.sources.below loc)

/-- What stands in the way of a compilation. A given source does without a configuration, but not with a bad one. -/
inductive Faulty (files : Files) (config : Path) (source : Option Path) : Prop
  | configuration {e} :
      load files config = .error e → source = none ∨ files.exists? config = true → Faulty files config source
  | noSources {l} :
      source = none → load files config = .ok l → files.isDirectory l.sources = false → Faulty files config source
  | unopened {l es x e} :
      source = none → load files config = .ok l → files.entry? l.sources = some (.directory es) →
      x ∈ (Entry.directory es).descendants → x.2.isDirectory = true →
      Files.checkPath (l.sources.below x.1) = .error e → Faulty files config source
  | unreadable {path e} :
      ToCompile files config source path → files.readText path = .error e → Faulty files config source
  | uncompilable {path text} :
      ToCompile files config source path → files.readText path = .ok text → Uncompilable text →
      Faulty files config source

/-- The sources at some locations below a directory that fail, in order, each with its diagnostic. -/
inductive Reported (files : Files) (options : Options) (directory : Path) :
    List Location → List (Path × Diagnostic) → Prop
  | nil : Reported files options directory [] []
  | compiled {l ls text ds} :
      files.readText (directory.below l) = .ok text → ¬ Uncompilable text → Reported files options directory ls ds →
      Reported files options directory (l :: ls) ds
  | failed {l ls text e ds} :
      files.readText (directory.below l) = .ok text → Uncompilable text →
      (compile options (Run.sourceName (directory.below l)) text).1 = .error e →
      Reported files options directory ls ds →
      Reported files options directory (l :: ls) ((directory.below l, e.diagnostic) :: ds)

/-- A search that fails stands in the way. -/
theorem Faulty.of_search {files : Files} {config : Path} {l : Loaded} {e : SearchError}
    (hload : load files config = .ok l) (h : files.search l.sources = .error e) : Faulty files config none := by
  rcases files.search_cases l.sources with ⟨hnone, -⟩ | ⟨es, hentry, ⟨-, hok⟩ | ⟨d, e', hd, -⟩⟩
  · exact .noSources rfl hload hnone
  · rw [h] at hok
    cases hok
  · obtain ⟨front, sub, back, hdescendants, -, he⟩ := hd
    have hmem : (d, .directory sub) ∈ (Entry.directory es).descendants := by simp [hdescendants]
    exact .unopened rfl hload hentry hmem rfl he

namespace Run

variable {s : Session} {config : Path} {debug : Bool} {format : Format}

theorem Outcomes.reported {files : Files} {options : Options} {directory : Path} {ls : List Location}
    {modules : List (Location × Compiled)} {ds : List (Path × Diagnostic)}
    (h : Outcomes files options directory ls modules ds) : Reported files options directory ls ds := by
  induction h with
  | nil => exact .nil
  | @compiled l ls text c modules ds htext hc _ ih =>
    refine .compiled htext (fun hbad => ?_) ih
    obtain ⟨e, he⟩ := (uncompilable_iff options (sourceName (directory.below l)) text).1 hbad
    rw [hc] at he
    cases he
  | failed htext hc _ ih => exact .failed htext ((uncompilable_iff _ _ _).2 ⟨_, hc⟩) hc ih

theorem reported_ne_nil {files : Files} {options : Options} {directory : Path} {ls : List Location}
    {ds : List (Path × Diagnostic)} (h : Reported files options directory ls ds) {l : Location} {text : String}
    (hl : l ∈ ls) (htext : files.readText (directory.below l) = .ok text) (hbad : Uncompilable text) : ds ≠ [] := by
  induction h with
  | nil => cases hl
  | compiled htext' hgood _ ih =>
    rcases List.mem_cons.1 hl with rfl | hl
    · rw [htext] at htext'
      cases htext'
      exact absurd hbad hgood
    · exact ih hl
  | failed => simp

/-- A project up to the point where its sources have been compiled. -/
theorem compileProject_eq {l : Loaded} {ls : List Location} (hload : load s.files config = .ok l)
    (hls : s.files.sources? l.sources = some ls) :
    compileProject config debug format s =
      (compileAll (l.project.target.options debug) l.sources format ls >>= fun x => do
        if 0 < x.2 then throw (.someNotCompiled x.2 ls.length)
        writeAll l.output x.1) s := by
  have hproject : loadProject config s = (.ok l, s) := by rw [loadProject_apply, hload]; rfl
  rw [compileProject, bind_of_ok _ hproject, bind_of_ok _ (findSources_of_ok (Files.sources?_eq_some_iff.1 hls))]

/-- With a failure, the project is given up after all reports. -/
theorem compileProject_of_readable (debug : Bool) (format : Format) {l : Loaded} {ls : List Location}
    (hload : load s.files config = .ok l)
    (hls : s.files.sources? l.sources = some ls)
    (hread : ∀ loc ∈ ls, ∃ text, s.files.readText (l.sources.below loc) = .ok text) :
    ∃ ds, Reported s.files (l.project.target.options debug) l.sources ls ds ∧
      (compileProject config debug format s).2.output = s.output ++ reportLines format ds ∧
      (ds ≠ [] → compileProject config debug format s =
        (.error (.someNotCompiled ds.length ls.length), s.printing (reportLines format ds))) := by
  obtain ⟨modules, ds, hout⟩ := exists_outcomes (l.project.target.options debug) hread
  refine ⟨ds, hout.reported, ?_⟩
  rw [compileProject_eq hload hls, bind_of_ok _ (hout.compileAll_eq format rfl)]
  cases ds with
  | nil =>
    refine ⟨?_, fun hne => absurd rfl hne⟩
    rw [if_neg (by simp)]
    exact quiet_writeAll _ _ _
  | cons d ds =>
    rw [if_pos (by simp)]
    exact ⟨rfl, fun _ => rfl⟩

theorem compileProject_refused_of_unreadable {l : Loaded} {ls : List Location} {loc : Location} {e : ReadError}
    (hload : load s.files config = .ok l) (hls : s.files.sources? l.sources = some ls) (hloc : loc ∈ ls)
    (h : s.files.readText (l.sources.below loc) = .error e) : Refused (compileProject config debug format) s :=
  .of_eq (compileProject_eq hload hls) (.bind (compileAll_refused hloc h))

theorem compileProject_refused_of_uncompilable {path : Path} {text : String}
    (hpath : ToCompile s.files config none path) (htext : s.files.readText path = .ok text) (hbad : Uncompilable text) :
    Refused (compileProject config debug format) s := by
  cases hpath with
  | @found l ls loc hload hls hloc =>
    by_cases hread : ∀ loc ∈ ls, ∃ text, s.files.readText (l.sources.below loc) = .ok text
    · obtain ⟨ds, hds, -, hfails⟩ := compileProject_of_readable debug format hload hls hread
      exact ⟨_, _, hfails (reported_ne_nil hds hloc htext hbad)⟩
    · obtain ⟨loc', hloc', e, he⟩ : ∃ loc' ∈ ls, ∃ e, s.files.readText (l.sources.below loc') = .error e := by
        obtain ⟨loc', hnot⟩ := Classical.not_forall.1 hread
        obtain ⟨hloc', hnone⟩ := Classical.not_imp.1 hnot
        cases htext' : s.files.readText (l.sources.below loc') with
        | ok text' => exact absurd ⟨text', htext'⟩ hnone
        | error e => exact ⟨loc', hloc', e, htext'⟩
      exact compileProject_refused_of_unreadable hload hls hloc' he

theorem compileProject_refused_of_search {l : Loaded} {e : SearchError} (hload : load s.files config = .ok l)
    (h : s.files.search l.sources = .error e) : Refused (compileProject config debug format) s := by
  have hproject : loadProject config s = (.ok l, s) := by rw [loadProject_apply, hload]; rfl
  exact .after_pure hproject (.bind (.of_error (findSources_of_error h)))

theorem compileProject_refused (h : Faulty s.files config none) : Refused (compileProject config debug format) s := by
  cases h with
  | @configuration e hload _ =>
    have hproject : loadProject config s = (.error (.configuration e), s) := by rw [loadProject_apply, hload]; rfl
    exact .bind (.of_error hproject)
  | noSources _ hload hsources => exact compileProject_refused_of_search hload (Files.search_of_isDirectory hsources)
  | unopened _ hload hentry hx hdirectory he =>
    obtain ⟨_, hsearch⟩ := Files.search_of_unopened hentry hx hdirectory he
    exact compileProject_refused_of_search hload hsearch
  | unreadable hpath htext =>
    cases hpath with
    | found hload hls hloc => exact compileProject_refused_of_unreadable hload hls hloc htext
  | uncompilable hpath htext hbad => exact compileProject_refused_of_uncompilable hpath htext hbad

theorem compileFile_refused {path : Path} {output : Option Path} (h : Faulty s.files config (some path)) :
    Refused (compileFile config path output debug format) s := by
  rcases targetFor_cases config s with ⟨target, htarget⟩ | ⟨f, htarget⟩
  · refine .after_pure htarget ?_
    cases h with
    | @configuration e hload hexists =>
      have hexists : s.files.exists? config = true := by simpa using hexists
      rw [targetFor_of_exists hexists, hload] at htarget
      cases htarget
    | noSources hnone => cases hnone
    | unopened hnone => cases hnone
    | unreadable hpath htext =>
      cases hpath
      exact .bind (.of_error (compileSource_of_error _ htext))
    | @uncompilable _ text hpath htext hbad =>
      cases hpath
      obtain ⟨e, he⟩ := (uncompilable_iff (target.options debug) (sourceName path) text).1 hbad
      refine .after_pure (compileSource_of_ok _ htext) ?_
      rw [he]
      exact .after (report_apply _ _ _ s) ⟨_, "", by rw [Session.printing_empty]; rfl⟩
  · exact .bind (.of_error htarget)

end Run

/-- Compiling is all or nothing. When anything stands in the way, the exit code is 1 and the files are as they were. A
project whose sources can be read gets one report for each source that fails, in order, and the number of failures. -/
theorem run_compile_of_faulty {files : Files} {args : List String} {config : String} {source output : Option String}
    {debug : Bool} {format : Format} (hargs : readArguments args = .ok ⟨config, .compile source output debug format⟩) :
    (Faulty files ⟨config⟩ (source.map Path.mk) → (run files args).exit = 1 ∧ (run files args).files = files) ∧
    ∀ l ls, source = none → load files ⟨config⟩ = .ok l → files.sources? l.sources = some ls →
      (∀ loc ∈ ls, ∃ text, files.readText (l.sources.below loc) = .ok text) →
      ∃ ds, Reported files (l.project.target.options debug) l.sources ls ds ∧
        (run files args).output = Run.reportLines format ds ∧
        (ds ≠ [] → (run files args).errors = (Failure.someNotCompiled ds.length ls.length).report) := by
  constructor
  · intro h
    obtain ⟨f, text, hrefused⟩ : Run.Refused (perform ⟨config, .compile source output debug format⟩) ⟨files, ""⟩ := by
      cases source with
      | none => exact Run.compileProject_refused h
      | some source => exact Run.compileFile_refused h
    rw [run_of_error hargs hrefused]
    exact ⟨rfl, rfl⟩
  · rintro l ls rfl hload hls hread
    obtain ⟨ds, hds, houtput, hfails⟩ := Run.compileProject_of_readable (s := ⟨files, ""⟩) debug format hload hls hread
    refine ⟨ds, hds, ?_, fun hne => ?_⟩
    · rcases hrun : Run.compileProject ⟨config⟩ debug format ⟨files, ""⟩ with ⟨f | _, s⟩
      · rw [run_of_error hargs hrun]
        rw [hrun] at houtput
        simpa using houtput
      · rw [run_of_ok hargs hrun]
        rw [hrun] at houtput
        simpa using houtput
    · rw [run_of_error hargs (hfails hne)]

def halfGood : Files :=
  ⟨.directory [("chains", .directory [("a.chain", .file "def a = b".toUTF8), ("b.chain", .file "def".toUTF8)]),
    ("linklang.yaml", .file "name: p".toUTF8)], []⟩

theorem run_compile_of_faulty_halfGood :
    Program.ofSource "def" = .error (.parse (.unexpected .definitionName (.eofAt ⟨1, 4⟩))) ∧
      (run halfGood ["compile"]).exit = 1 ∧ (run halfGood ["compile"]).files = halfGood := by
  have hproject : Project.ofText "name: p" = .ok ⟨"p", "0.1.0", "chains", "dist", .standard⟩ := by decide +kernel
  have hconfig : halfGood.readText ⟨"linklang.yaml"⟩ = .ok "name: p" := Files.readText_of_read rfl
  have hload : load halfGood ⟨"linklang.yaml"⟩ = .ok ⟨_, ⟨""⟩⟩ := load_of_file rfl rfl hconfig hproject
  have hsources : halfGood.sources? ⟨"chains"⟩ = some [["a.chain"], ["b.chain"]] := by
    have hentry : halfGood.entry? ⟨"chains"⟩ =
        some (.directory [("a.chain", .file "def a = b".toUTF8), ("b.chain", .file "def".toUTF8)]) := rfl
    rw [Files.sources?_eq_some_iff, Files.search_of_entry hentry, Entry.descendants_of_pairwise (by simp)]
    simp only [List.flatMap_cons, List.flatMap_nil, Entry.descendantsAt_eq, Entry.descendants_file]
    rfl
  have hfound : ToCompile halfGood ⟨"linklang.yaml"⟩ none ⟨"chains/b.chain"⟩ := by
    have hmem : ["b.chain"] ∈ [["a.chain"], ["b.chain"]] := by simp
    exact .found hload hsources hmem
  have hparse : Program.ofSource "def" = .error (.parse (.unexpected .definitionName (.eofAt ⟨1, 4⟩))) := rfl
  have htext : halfGood.readText ⟨"chains/b.chain"⟩ = .ok "def" := Files.readText_of_read rfl
  exact ⟨hparse, (run_compile_of_faulty readArguments_compile).1 (.uncompilable hfound htext (.noProgram hparse))⟩

end ChainCompiler.Command
