import ChainCompiler.Proofs.Command.Atomicity

/-! Checking and compiling a project agree. Both go through the same sources in the same order, up to one that cannot be
read, and report the same sources as no programs, in the same words. -/

namespace ChainCompiler.Command

inductive Note where
  | fine (path : Path) (statements : Nat)
  | failed (path : Path) (d : Diagnostic)
  deriving DecidableEq

namespace Note

def fineLine (path : Path) (statements : Nat) : Format → String
  | .text => path.text ++ ": ok (" ++ statements.repr ++ " statements)" ++ "\n"
  | .json =>
    jsonLine [("file", .text path.text), ("ok", .bool true), ("statements", .number statements)] ++ "\n"

def line (format : Format) : Note → String
  | .fine path statements => fineLine path statements format
  | .failed path d => reportLine path d format

def lines (format : Format) (ns : List Note) : String := String.join (ns.map (line format))

def isFailure : Note → Bool
  | .fine .. => false
  | .failed .. => true

def isSyntax : Note → Bool
  | .fine .. => false
  | .failed _ d => d.stage == .lex || d.stage == .parse

theorem lines_cons (format : Format) (n : Note) (ns : List Note) :
    lines format (n :: ns) = n.line format ++ lines format ns := by
  simp [lines]

end Note

/-- The sources that can be read one after the other, up to the first that cannot, with their texts. -/
def textsUpTo (files : Files) : List Path → List (Path × String)
  | [] => []
  | path :: paths =>
    match files.readText path with
    | .ok text => (path, text) :: textsUpTo files paths
    | .error _ => []

def checkNote (path : Path) (text : String) : Note :=
  match Program.ofSource text with
  | .ok p => .fine path p.length
  | .error e => .failed path e.diagnostic

def compileNote? (options : Options) (path : Path) (text : String) : Option Note :=
  match (compile options (Run.sourceName path) text).1 with
  | .ok _ => none
  | .error e => some (.failed path e.diagnostic)

/-- The sources of a project that are read. There are none without a configuration and a directory of sources. -/
def sourcesRead (files : Files) (config : Path) : List (Path × String) :=
  match load files config with
  | .error _ => []
  | .ok l => textsUpTo files (((files.sources? l.sources).getD []).map l.sources.below)

def checkNotes (files : Files) (config : Path) : List Note :=
  (sourcesRead files config).map fun x => checkNote x.1 x.2

def compileNotes (files : Files) (config : Path) (debug : Bool) : List Note :=
  match load files config with
  | .error _ => []
  | .ok l => (sourcesRead files config).filterMap fun x => compileNote? (l.project.target.options debug) x.1 x.2

section Loading

variable {files : Files} {config : Path}

theorem sourcesRead_of_error {e : LoadError} (hload : load files config = .error e) : sourcesRead files config = [] := by
  unfold sourcesRead
  rw [hload]

theorem sourcesRead_of_ok {l : Loaded} (hload : load files config = .ok l) :
    sourcesRead files config = textsUpTo files (((files.sources? l.sources).getD []).map l.sources.below) := by
  unfold sourcesRead
  rw [hload]

theorem compileNotes_of_error {e : LoadError} (hload : load files config = .error e) (debug : Bool) :
    compileNotes files config debug = [] := by
  unfold compileNotes
  rw [hload]

theorem compileNotes_of_ok {l : Loaded} (hload : load files config = .ok l) (debug : Bool) :
    compileNotes files config debug =
      (sourcesRead files config).filterMap fun x => compileNote? (l.project.target.options debug) x.1 x.2 := by
  unfold compileNotes
  rw [hload]

end Loading

theorem isSyntax_of_ofSource (path : Path) (e : SourceError) : (Note.failed path e.diagnostic).isSyntax = true := by
  cases e <;> rfl

/-- Of one source: compiling reports a failure to scan or parse exactly if checking reports one, and the same one. -/
theorem filter_compileNote? (options : Options) (path : Path) (text : String) :
    (compileNote? options path text).filter Note.isSyntax = (some (checkNote path text)).filter Note.isFailure := by
  unfold compileNote? checkNote
  cases hp : Program.ofSource text with
  | error e =>
    rw [compile, hp]
    simp [Option.filter, isSyntax_of_ofSource, CompileError.diagnostic, Note.isFailure]
  | ok p =>
    cases hc : (compile options (Run.sourceName path) text).1 with
    | ok c => simp [Option.filter, Note.isFailure]
    | error e =>
      rcases compile_eq_error hc with ⟨e', hp', -⟩ | ⟨p', e', -, -, rfl⟩
      · rw [hp] at hp'
        cases hp'
      · rfl

/-- Of all sources of a project: the failures to scan or parse are those that checking reports. -/
theorem filter_compileNotes (files : Files) (config : Path) (debug : Bool) :
    (compileNotes files config debug).filter Note.isSyntax = (checkNotes files config).filter Note.isFailure := by
  rw [checkNotes]
  cases hload : load files config with
  | error e => rw [compileNotes_of_error hload, sourcesRead_of_error hload, List.map_nil, List.filter_nil, List.filter_nil]
  | ok l =>
    simp only [compileNotes_of_ok hload, List.filter_filterMap, filter_compileNote?]
    induction sourcesRead files config with
    | nil => rfl
    | cons x xs ih =>
      rw [List.filterMap_cons, ih, List.map_cons, List.filter_cons, Option.filter_some]
      cases (checkNote x.1 x.2).isFailure <;> rfl

theorem mem_textsUpTo {files : Files} {paths : List Path} {x : Path × String} (h : x ∈ textsUpTo files paths) :
    x.1 ∈ paths ∧ files.readText x.1 = .ok x.2 := by
  induction paths with
  | nil => cases h
  | cons path paths ih =>
    unfold textsUpTo at h
    cases htext : files.readText path with
    | error e =>
      rw [htext] at h
      cases h
    | ok text =>
      rw [htext] at h
      rcases List.mem_cons.1 h with rfl | h
      · exact ⟨by simp, htext⟩
      · exact ⟨List.mem_cons_of_mem _ (ih h).1, (ih h).2⟩

namespace Run

variable {s : Session} {config directory path : Path} {debug : Bool} {format : Format}

theorem reportFine_apply (path : Path) (statements : Nat) (format : Format) (s : Session) :
    reportFine path statements format s = (.ok (), s.printing (Note.fineLine path statements format)) := by
  cases format with
  | text => exact print_apply _ s
  | json => exact print_apply _ s

theorem checkSource_of_ok {text : String} (format : Format) (h : s.files.readText path = .ok text) :
    checkSource path format s =
      (.ok (!(checkNote path text).isFailure), s.printing ((checkNote path text).line format)) := by
  have hsource : source path s = (.ok text, s) := by rw [source_apply, h]; rfl
  rw [checkSource, bind_of_ok _ hsource, checkNote]
  cases Program.ofSource text with
  | ok p => exact bind_of_ok _ (reportFine_apply path p.length format s)
  | error e => exact bind_of_ok _ (report_apply path e.diagnostic format s)

theorem checkSource_of_error {e : ReadError} (format : Format) (h : s.files.readText path = .error e) :
    checkSource path format s = (.error (.unreadable path e), s) := by
  have hsource : source path s = (.error (.unreadable path e), s) := by rw [source_apply, h]; rfl
  exact bind_of_error _ hsource

/-- Checking goes on as long as the sources can be read. -/
theorem checkAll_cases (format : Format) (paths : List Path) (s : Session) :
    (checkAll format paths s =
        (.ok (((textsUpTo s.files paths).map fun x => checkNote x.1 x.2).countP Note.isFailure),
          s.printing (Note.lines format ((textsUpTo s.files paths).map fun x => checkNote x.1 x.2)))) ∨
      ∃ path ∈ paths, ∃ e, s.files.readText path = .error e ∧ checkAll format paths s =
        (.error (.unreadable path e),
          s.printing (Note.lines format ((textsUpTo s.files paths).map fun x => checkNote x.1 x.2))) := by
  induction paths generalizing s with
  | nil => exact .inl (by simp [checkAll, textsUpTo, Note.lines])
  | cons path paths ih =>
    cases htext : s.files.readText path with
    | error e =>
      refine .inr ⟨path, by simp, e, htext, ?_⟩
      rw [checkAll, bind_of_error _ (checkSource_of_error format htext), textsUpTo, htext]
      simp [Note.lines]
    | ok text =>
      have hsource := checkSource_of_ok format htext
      rw [checkAll, textsUpTo, htext, bind_of_ok _ hsource]
      simp only [List.map_cons, Note.lines_cons, ← Session.printing_printing]
      rcases ih (s.printing ((checkNote path text).line format)) with hrun | ⟨path', hpath', e, he, hrun⟩
      · left
        rw [bind_of_ok _ hrun, List.countP_cons]
        cases (checkNote path text).isFailure <;> rfl
      · exact .inr ⟨path', List.mem_cons_of_mem _ hpath', e, he, bind_of_error _ hrun⟩

/-- Compiling goes on as long as the sources can be read. -/
theorem compileAll_prints (options : Options) (directory : Path) (format : Format) (ls : List Location) (s : Session) :
    ∃ result, compileAll options directory format ls s = (result, s.printing (Note.lines format
      ((textsUpTo s.files (ls.map directory.below)).filterMap fun x => compileNote? options x.1 x.2))) := by
  induction ls generalizing s with
  | nil => exact ⟨.ok ([], 0), by simp [compileAll, textsUpTo, Note.lines]⟩
  | cons l ls ih =>
    rw [compileAll, List.map_cons, textsUpTo]
    cases htext : s.files.readText (directory.below l) with
    | error e =>
      refine ⟨.error (.unreadable (directory.below l) e), ?_⟩
      rw [bind_of_error _ (compileSource_of_error options htext)]
      simp [Note.lines]
    | ok text =>
      rw [bind_of_ok _ (compileSource_of_ok options htext), List.filterMap_cons, compileNote?]
      cases hc : (compile options (sourceName (directory.below l)) text).1 with
      | ok c =>
        obtain ⟨result, hrun⟩ := ih s
        rcases result with e | ⟨modules, failed⟩
        · exact ⟨.error e, bind_of_error _ hrun⟩
        · exact ⟨.ok ((l, c) :: modules, failed), bind_of_ok _ hrun⟩
      | error e =>
        have hreport := report_apply (directory.below l) e.diagnostic format s
        obtain ⟨result, hrun⟩ := ih (s.printing (reportLine (directory.below l) e.diagnostic format))
        simp only [mapError_error, bind_of_ok _ hreport, Note.lines_cons, Note.line, ← Session.printing_printing]
        rcases result with e' | ⟨modules, failed⟩
        · exact ⟨.error e', bind_of_error _ hrun⟩
        · exact ⟨.ok (modules, failed + 1), bind_of_ok _ hrun⟩

/-- Whatever becomes of the project, compiling prints what it has to say of the sources, and no more. -/
theorem output_compileProject (config : Path) (debug : Bool) (format : Format) (s : Session) :
    (compileProject config debug format s).2.output =
      s.output ++ Note.lines format (compileNotes s.files config debug) := by
  have hproject := loadProject_apply config s
  cases hload : load s.files config with
  | error e =>
    rw [hload] at hproject
    rw [compileProject, bind_of_error _ hproject, compileNotes_of_error hload]
    simp [Note.lines]
  | ok l =>
    rw [hload] at hproject
    cases hls : s.files.sources? l.sources with
    | none =>
      obtain ⟨e, he⟩ := Files.sources?_eq_none_iff.1 hls
      rw [compileProject, bind_of_ok _ hproject, bind_of_error _ (findSources_of_error he)]
      simp [Note.lines, textsUpTo, compileNotes_of_ok hload, sourcesRead_of_ok hload, hls]
    | some ls =>
      obtain ⟨result, hrun⟩ := compileAll_prints (l.project.target.options debug) l.sources format ls s
      rw [compileProject_eq hload hls, compileNotes_of_ok hload, sourcesRead_of_ok hload, hls, Option.getD_some]
      cases result with
      | error e =>
        rw [bind_of_error _ hrun]
        rfl
      | ok x =>
        rw [bind_of_ok _ hrun]
        split
        · rfl
        · exact quiet_writeAll _ _ _

/-- Checking prints what it has to say of the sources, and fails only if compiling must. -/
theorem checkSources_cases (config : Path) (format : Format) (s : Session) :
    checkSources config none format s = (.ok (), s.printing (Note.lines format (checkNotes s.files config))) ∨
      Faulty s.files config none ∧ ∃ f, checkSources config none format s =
        (.error f, s.printing (Note.lines format (checkNotes s.files config))) := by
  have hproject := loadProject_apply config s
  unfold checkNotes
  cases hload : load s.files config with
  | error e =>
    rw [hload] at hproject
    have hsources : sourcesToCheck config none s = (.error (.configuration e), s) := bind_of_error _ hproject
    refine .inr ⟨.configuration hload (.inl rfl), .configuration e, ?_⟩
    rw [checkSources, bind_of_error _ hsources, sourcesRead_of_error hload]
    simp [Note.lines]
  | ok l =>
    rw [hload] at hproject
    cases hls : s.files.sources? l.sources with
    | none =>
      obtain ⟨e, he⟩ := Files.sources?_eq_none_iff.1 hls
      have hsources : sourcesToCheck config none s = (.error (.ofSearch l.sources e), s) := by
        refine (bind_of_ok _ hproject).trans ?_
        exact bind_of_error _ (findSources_of_error he)
      refine .inr ⟨.of_search hload he, .ofSearch l.sources e, ?_⟩
      rw [checkSources, bind_of_error _ hsources, sourcesRead_of_ok hload, hls]
      simp [Note.lines, textsUpTo]
    | some ls =>
      have hsources : sourcesToCheck config none s = (.ok (ls.map l.sources.below), s) := by
        refine (bind_of_ok _ hproject).trans ?_
        exact bind_of_ok _ (findSources_of_ok (Files.sources?_eq_some_iff.1 hls))
      have hfound : ∀ path ∈ ls.map l.sources.below, ToCompile s.files config none path := by
        intro path hpath
        obtain ⟨loc, hloc, rfl⟩ := List.mem_map.1 hpath
        exact .found hload hls hloc
      rw [checkSources, bind_of_ok _ hsources, sourcesRead_of_ok hload, hls, Option.getD_some]
      rcases checkAll_cases format (ls.map l.sources.below) s with hrun | ⟨path, hpath, e, he, hrun⟩
      · rw [bind_of_ok _ hrun]
        split
        · next hsome =>
          obtain ⟨note, hnote, hfailure⟩ := List.countP_pos_iff.1 hsome
          obtain ⟨x, hx, rfl⟩ := List.mem_map.1 hnote
          obtain ⟨hpath, htext⟩ := mem_textsUpTo hx
          refine .inr ⟨.uncompilable (hfound _ hpath) htext ?_, _, rfl⟩
          unfold checkNote at hfailure
          cases hp : Program.ofSource x.2 with
          | error e => exact .noProgram hp
          | ok p =>
            rw [hp] at hfailure
            cases hfailure
        · exact .inl rfl
      · exact .inr ⟨.unreadable (hfound _ hpath) he, _, bind_of_error _ hrun⟩

end Run

/-- Checking and compiling a project agree on what is a program. Of what compiling reports, the failures to scan or parse
are exactly the failures that checking reports, in the same lines and the same order. What can be compiled passes the
check, and what fails the check is not compiled: nothing is written then. -/
theorem run_check_agrees {files : Files} {args args' : List String} {config : String} {output : Option String}
    {debug : Bool} {format : Format} (hcheck : readArguments args = .ok ⟨config, .check none format⟩)
    (hcompile : readArguments args' = .ok ⟨config, .compile none output debug format⟩) :
    (run files args).output = Note.lines format (checkNotes files ⟨config⟩) ∧
      (run files args').output = Note.lines format (compileNotes files ⟨config⟩ debug) ∧
      (compileNotes files ⟨config⟩ debug).filter Note.isSyntax = (checkNotes files ⟨config⟩).filter Note.isFailure ∧
      ((run files args').exit = 0 → (run files args).exit = 0) ∧
      ((run files args).exit = 1 → (run files args').exit = 1 ∧ (run files args').files = files) := by
  have hnotes : (run files args').output = Note.lines format (compileNotes files ⟨config⟩ debug) := by
    rw [output_run hcompile]
    exact (Run.output_compileProject ⟨config⟩ debug format ⟨files, ""⟩).trans (String.empty_append)
  rcases Run.checkSources_cases ⟨config⟩ format ⟨files, ""⟩ with hfine | ⟨hfaulty, f, hfails⟩
  · rw [run_of_ok hcheck hfine]
    exact ⟨by simp [Session.printing], hnotes, filter_compileNotes _ _ _, fun _ => rfl, by simp⟩
  · have hrefuses : Run.Refused (Run.compileProject ⟨config⟩ debug format) ⟨files, ""⟩ :=
      Run.compileProject_refused hfaulty
    obtain ⟨f', text, hrefused⟩ := hrefuses
    rw [run_of_error hcompile hrefused] at hnotes ⊢
    rw [run_of_error hcheck hfails]
    exact ⟨by simp [Session.printing], hnotes, filter_compileNotes _ _ _, by simp, fun _ => ⟨rfl, rfl⟩⟩

theorem readArguments_check : readArguments ["check"] = .ok ⟨Project.fileName, .check none .text⟩ := by
  refine readArguments_of_command (by simp) ?_
  simp only [readAction, Usage.read]
  rfl

theorem run_check_agrees_halfGood :
    (run halfGood ["check"]).output = Note.lines .text (checkNotes halfGood ⟨Project.fileName⟩) ∧
      (run halfGood ["compile"]).output = Note.lines .text (compileNotes halfGood ⟨Project.fileName⟩ false) ∧
      (compileNotes halfGood ⟨Project.fileName⟩ false).filter Note.isSyntax =
        (checkNotes halfGood ⟨Project.fileName⟩).filter Note.isFailure ∧
      ((run halfGood ["compile"]).exit = 0 → (run halfGood ["check"]).exit = 0) ∧
      ((run halfGood ["check"]).exit = 1 →
        (run halfGood ["compile"]).exit = 1 ∧ (run halfGood ["compile"]).files = halfGood) :=
  run_check_agrees readArguments_check readArguments_compile

end ChainCompiler.Command
