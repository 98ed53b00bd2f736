import ChainCompiler.Command.Run
import ChainCompiler.Proofs.Files.Tree

/-! Runs of commands. A run goes from one session to the next, and what each of its steps does to the files and to the
output is said once. -/

namespace ChainCompiler.Command

namespace Session

def printing (s : Session) (text : String) : Session := { s with output := s.output ++ text }

@[simp] theorem printing_empty (s : Session) : s.printing "" = s := by
  simp [printing]

@[simp] theorem printing_printing (s : Session) (a b : String) : (s.printing a).printing b = s.printing (a ++ b) := by
  simp [printing, String.append_assoc]

end Session

def reportLine (path : Path) (d : Diagnostic) : Format → String
  | .text => path.text ++ ": " ++ d.text ++ "\n"
  | .json => jsonLine (optionalMember "column" d.column ++ [("file", .text path.text)] ++
      optionalMember "line" d.line ++ [("message", .text d.message), ("stage", .text d.stage.name)]) ++ "\n"

namespace Run

variable {α β : Type} {x : Run α} {f : α → Run β} {s t : Session}

@[simp] theorem pure_apply (a : α) (s : Session) : (pure a : Run α) s = (.ok a, s) := rfl

theorem bind_apply (x : Run α) (f : α → Run β) (s : Session) : (x >>= f) s = ExceptT.bindCont f (x s).1 (x s).2 := rfl

theorem bind_of_ok {a : α} (f : α → Run β) (h : x s = (.ok a, t)) : (x >>= f) s = f a t := by
  rw [bind_apply, h]
  rfl

theorem bind_of_error {e : Failure} (f : α → Run β) (h : x s = (.error e, t)) : (x >>= f) s = (.error e, t) := by
  rw [bind_apply, h]
  rfl

/-- A sequence succeeds when its second part does in the session that its first part leaves. -/
theorem bind_eq_ok {b : β} : (x >>= f) s = (.ok b, t) ↔ ∃ a u, x s = (.ok a, u) ∧ f a u = (.ok b, t) := by
  constructor
  · intro h
    rcases hx : x s with ⟨e | a, u⟩
    · rw [bind_of_error f hx] at h
      cases h
    · rw [bind_of_ok f hx] at h
      exact ⟨a, u, rfl, h⟩
  · rintro ⟨a, u, hx, hf⟩
    rw [bind_of_ok f hx, hf]

theorem print_apply (line : String) (s : Session) : print line s = (.ok (), s.printing (line ++ "\n")) := by
  rw [Session.printing, ← String.append_assoc]
  rfl

theorem report_apply (path : Path) (d : Diagnostic) (format : Format) (s : Session) :
    report path d format s = (.ok (), s.printing (reportLine path d format)) := by
  cases format with
  | text => exact print_apply _ s
  | json => exact print_apply _ s

theorem files_apply (s : Session) : files s = (.ok s.files, s) := rfl

theorem source_apply (path : Path) (s : Session) :
    source path s = ((s.files.readText path).mapError (.unreadable path), s) := by
  rw [source, bind_of_ok _ (files_apply s)]
  cases s.files.readText path <;> rfl

theorem loadProject_apply (path : Path) (s : Session) :
    loadProject path s = ((load s.files path).mapError .configuration, s) := by
  rw [loadProject, bind_of_ok _ (files_apply s)]
  cases load s.files path <;> rfl

theorem findSources_apply (directory : Path) (s : Session) :
    findSources directory s = ((s.files.search directory).mapError (.ofSearch directory), s) := by
  rw [findSources, bind_of_ok _ (files_apply s)]
  cases s.files.search directory <;> rfl

theorem findSources_of_ok {directory : Path} {ls : List Location} (h : s.files.search directory = .ok ls) :
    findSources directory s = (.ok ls, s) := by
  rw [findSources_apply, h]
  rfl

theorem findSources_of_error {directory : Path} {e : SearchError} (h : s.files.search directory = .error e) :
    findSources directory s = (.error (.ofSearch directory e), s) := by
  rw [findSources_apply, h]
  rfl

theorem compileSource_of_ok {path : Path} {text : String} (options : Options)
    (h : s.files.readText path = .ok text) :
    compileSource options path s =
      (.ok ((compile options (sourceName path) text).1.mapError CompileError.diagnostic), s) := by
  have hsource : source path s = (.ok text, s) := by rw [source_apply, h]; rfl
  rw [compileSource, bind_of_ok _ hsource]
  rfl

theorem compileSource_of_error {path : Path} {e : ReadError} (options : Options)
    (h : s.files.readText path = .error e) : compileSource options path s = (.error (.unreadable path e), s) := by
  have hsource : source path s = (.error (.unreadable path e), s) := by rw [source_apply, h]; rfl
  rw [compileSource, bind_of_error _ hsource]

/-- Without a configuration the usual target is taken. -/
theorem targetFor_of_missing {config : Path} (h : s.files.exists? config = false) :
    targetFor config s = (.ok .standard, s) := by
  rw [targetFor, bind_of_ok _ (files_apply s), if_neg (by simp [h])]
  rfl

theorem targetFor_of_exists {config : Path} (h : s.files.exists? config = true) :
    targetFor config s = ((load s.files config).mapError .configuration |>.map (·.project.target), s) := by
  rw [targetFor, bind_of_ok _ (files_apply s), if_pos h]
  have hproject := loadProject_apply config s
  cases hload : load s.files config with
  | error e =>
    rw [hload] at hproject
    rw [bind_of_error _ hproject]
    rfl
  | ok l =>
    rw [hload] at hproject
    rw [bind_of_ok _ hproject]
    rfl

/-- Looking for the target has no effect. -/
theorem targetFor_cases (config : Path) (s : Session) :
    (∃ target, targetFor config s = (.ok target, s)) ∨ ∃ f, targetFor config s = (.error f, s) := by
  cases h : s.files.exists? config with
  | false => exact .inl ⟨_, targetFor_of_missing h⟩
  | true =>
    rw [targetFor_of_exists h]
    cases load s.files config with
    | ok l => exact .inl ⟨_, rfl⟩
    | error e => exact .inr ⟨_, rfl⟩

theorem makeAll_apply (path : Path) (failure : SystemError → Failure) (s : Session) :
    makeAll path failure s = ((s.files.makeAll path).2.mapError failure, ⟨(s.files.makeAll path).1, s.output⟩) := by
  rw [makeAll, bind_of_ok _ (show (get : Run Session) s = (.ok s, s) from rfl)]
  rcases s.files.makeAll path with ⟨f, _ | _⟩ <;> rfl

theorem write_of_ok {path : Path} {text : String} {f : Files} (failure : SystemError → Failure)
    (h : s.files.write path text.toUTF8 = .ok f) : write path text failure s = (.ok (), ⟨f, s.output⟩) := by
  rw [write, bind_of_ok _ (show (get : Run Session) s = (.ok s, s) from rfl)]
  simp only [h]
  rfl

theorem write_of_error {path : Path} {text : String} {e : SystemError} (failure : SystemError → Failure)
    (h : s.files.write path text.toUTF8 = .error e) : write path text failure s = (.error (failure e), s) := by
  rw [write, bind_of_ok _ (show (get : Run Session) s = (.ok s, s) from rfl)]
  simp only [h]
  rfl

/-- A path has nothing above it that is to be made, or it has a parent. -/
theorem parent_cases (path : Path) :
    (∀ parent, path.parent? = some parent → parent.text.isEmpty = true) ∨
      ∃ parent, path.parent? = some parent ∧ parent.text.isEmpty = false := by
  cases h : path.parent? with
  | none => exact .inl fun _ hp => nomatch hp
  | some parent =>
    cases hempty : parent.text.isEmpty with
    | true =>
      left
      rintro _ ⟨⟩
      exact hempty
    | false => exact .inr ⟨parent, rfl, hempty⟩

theorem writeModule_of_parent {path parent : Path} (c : Compiled) (h : path.parent? = some parent)
    (hparent : parent.text.isEmpty = false) :
    writeModule path c = makeAll parent (.notCreated parent) >>= fun _ => write path c.code (.notWritten path) := by
  simp only [writeModule, h, hparent]
  rfl

theorem writeModule_of_steps {path parent : Path} {c : Compiled} {f t : Files}
    (h : path.parent? = some parent) (hparent : parent.text.isEmpty = false)
    (hmake : s.files.makeAll parent = (f, .ok ())) (hwrite : f.write path c.code.toUTF8 = .ok t) :
    writeModule path c s = (.ok (), ⟨t, s.output⟩) := by
  have hmade := makeAll_apply parent (.notCreated parent) s
  rw [hmake] at hmade
  rw [writeModule_of_parent c h hparent, bind_of_ok _ hmade, write_of_ok _ hwrite]

theorem writeModule_of_noParent {path : Path} (c : Compiled)
    (h : ∀ parent, path.parent? = some parent → parent.text.isEmpty = true) :
    writeModule path c = write path c.code (.notWritten path) := by
  cases hparent : path.parent? with
  | none =>
    simp only [writeModule, hparent]
  | some parent =>
    simp only [writeModule, hparent, h parent hparent]
    rfl

end Run

/-- A command that stands first has the arguments after it. -/
theorem readArguments_of_command {name : String} {args : List String} {action : Action}
    (hname : name ∈ ["init", "compile", "check"]) (haction : readAction name args = .ok action) :
    readArguments (name :: args) = .ok ⟨Project.fileName, action⟩ := by
  have hread : mainUsage.read .empty (name :: args) = .ok (.empty, some (name, args)) := by
    simp only [List.mem_cons, List.not_mem_nil, or_false] at hname
    rcases hname with rfl | rfl | rfl <;> rw [Usage.read] <;> rfl
  rw [readArguments, hread]
  simp only [bind, Except.bind, haction]
  rfl

/-- Without further arguments the project in the working directory is compiled. -/
theorem readArguments_compile :
    readArguments ["compile"] = .ok ⟨Project.fileName, .compile none none false .text⟩ := by
  refine readArguments_of_command (by simp) ?_
  simp only [readAction, Usage.read]
  rfl

/-- A project is loaded from a file. -/
theorem load_of_file {f : Files} {path : Path} {text : String} {project : Project}
    (hdirectory : f.isDirectory path = false) (hexists : f.exists? path = true) (htext : f.readText path = .ok text)
    (hproject : Project.ofText text = .ok project) : load f path = .ok ⟨project, path.parent?.getD ⟨"."⟩⟩ := by
  have hplace : configPlace f path = (path, path.parent?.getD ⟨"."⟩) := by
    rw [configPlace, if_neg (by simp [hdirectory])]
  rw [load, hplace]
  simp only [bind, Except.bind, hexists, htext, hproject, mapError_ok]
  rfl

section Outcome

variable {files : Files} {args : List String} {i : Invocation} {s : Session}

theorem run_of_ok (hargs : readArguments args = .ok i) (h : perform i ⟨files, ""⟩ = (.ok (), s)) :
    run files args = ⟨0, s.output, "", s.files⟩ := by
  have h : (perform i).run ⟨files, ""⟩ = (.ok (), s) := h
  rw [run, hargs]
  simp only [h]

theorem run_of_error {f : Failure} (hargs : readArguments args = .ok i) (h : perform i ⟨files, ""⟩ = (.error f, s)) :
    run files args = ⟨1, s.output, f.report, s.files⟩ := by
  have h : (perform i).run ⟨files, ""⟩ = (.error f, s) := h
  rw [run, hargs]
  simp only [h]

theorem output_run (hargs : readArguments args = .ok i) :
    (run files args).output = (perform i ⟨files, ""⟩).2.output := by
  rcases h : perform i ⟨files, ""⟩ with ⟨f | _, s⟩
  · rw [run_of_error hargs h]
  · rw [run_of_ok hargs h]

theorem files_run (hargs : readArguments args = .ok i) : (run files args).files = (perform i ⟨files, ""⟩).2.files := by
  rcases h : perform i ⟨files, ""⟩ with ⟨f | _, s⟩
  · rw [run_of_error hargs h]
  · rw [run_of_ok hargs h]

end Outcome

end ChainCompiler.Command
