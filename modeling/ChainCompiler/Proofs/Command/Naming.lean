import ChainCompiler.Proofs.Command.Initialization
import ChainCompiler.Proofs.Yaml.Entry
import ChainCompiler.Proofs.Yaml.Value
import Mathlib.Tactic

/-! The name in the configuration of a new project. The name is put into a YAML text as it is, so that it is read back
as it was given just if it is a plain scalar of one line. -/

namespace ChainCompiler.Yaml.Scanner

open Place

variable {s s' : Scanner} {n : Nat} {rest u next : List Char} {c d : Char}

/-- A step of a scanner, from the gap before its token on. -/
theorem run_of_gap (hgap : (skipGap (n + 1) s).checkKeys = some s') (hunroll : s'.unroll s'.place.column = s')
    (hend : s'.place.atEnd = false) : s.run (n + 1) = s'.token.bind (·.run n) := by
  simp [run, hgap, hunroll, hend]

/-- A comment that takes a whole line. -/
theorem skipGap_comment {w : List Char} {line column : Nat} (hw : ∀ e ∈ w, isBreak e = false)
    (hplace : s.place = ⟨'#' :: w ++ '\n' :: rest, line, column⟩) :
    skipGap (n + 1) s = skipGap n { s with place := ⟨rest, line + 1, 0⟩, keyAllowed := s.keyAllowed || s.flow = 0 } := by
  have hline : ('#' :: w ++ '\n' :: rest).takeWhile (fun e => !isBreak e) = '#' :: w := by
    rw [List.takeWhile_append_of_pos (by simpa [isBreak] using hw)]
    simp [isBreak]
  have hskip : s.place.skipLine = ⟨'\n' :: rest, line, column + (w.length + 1)⟩ := by
    rw [skipLine, skipWhile, span, hplace, hline]
    exact advance_append ('#' :: w)
  have hgap : s.lineGap = ⟨'\n' :: rest, line, column + (w.length + 1)⟩ := by
    rw [lineGap_of_word (by rw [hplace]; rfl) rfl (by decide), hskip, hplace]
    rfl
  rw [skipGap_succ, hgap]
  rfl

/-- The space before a value. -/
theorem skipGap_space {line column : Nat} (hspace : isSpace d = false) (hbreak : isBreak d = false) (hhash : d ≠ '#')
    (hplace : s.place = ⟨' ' :: d :: rest, line, column + 1⟩) :
    skipGap (n + 1) s = { s with place := ⟨d :: rest, line, column + 2⟩ } := by
  have hblank : (d == ' ') = false ∧ (d == '\t') = false := by simpa [isSpace] using hspace
  have hgap : s.lineGap = ⟨d :: rest, line, column + 2⟩ := by
    simp [lineGap, hplace, skipMark, skipWhile, span, hblank, hhash]
  rw [skipGap_succ, hgap, if_neg (by simp [hbreak])]

/-- Where a plain scalar starts, one is read. -/
theorem token_of_opener {line column : Nat} (hplace : s.place = ⟨d :: rest, line, column + 1⟩) (hflow : s.flow = 0)
    (hspace : isSpace d = false) (hbreak : isBreak d = false)
    (hmark : indicators.contains d = false ∨ ['-', '?', ':'].contains d = true ∧ s.place.isGap 1 = false) :
    s.token = s.plainScalar := by
  rcases hmark with hmark | ⟨hmark, hgap⟩
  · simp [indicators] at hmark
    simp [token, startsPlain, hplace, isTriple, isAtAny, peek?, isGap, hspace, hbreak, hmark]
  · rw [hplace] at hgap
    cases rest with
    | nil => cases hgap
    | cons e rest =>
      have hword : isSpace e = false ∧ isBreak e = false := Bool.or_eq_false_iff.1 hgap
      have hmark : d = '-' ∨ d = '?' ∨ d = ':' := by simpa using hmark
      rcases hmark with rfl | rfl | rfl <;>
        simp [token, startsPlain, hplace, isTriple, isAt, isAtAny, peek?, isGap, hword, hflow]

theorem byteCount_cons (c : Char) (cs : List Char) : byteCount (c :: cs) = c.utf8Size + byteCount cs := by
  have hfold (n : Nat) : cs.foldl (fun n c => n + c.utf8Size) n = n + cs.foldl (fun n c => n + c.utf8Size) 0 := by
    induction cs generalizing n with
    | nil => rfl
    | cons d cs ih =>
      rw [List.foldl_cons, List.foldl_cons, ih, ih (0 + _)]
      omega
  simp only [byteCount, List.foldl_cons]
  rw [hfold]
  omega

/-! The states of a scanner around the name of a new project. -/

def headed (comment rest : List Char) : List Char :=
  '#' :: comment ++ '\n' :: 'n' :: 'a' :: 'm' :: 'e' :: ':' :: ' ' :: rest

def settingLines : List String :=
  ["version: \"0.1.0\"\n", "\n", "# Where .chain sources live and where generated modules go\n", "sources: chains\n",
    "output: dist\n", "\n", "target:\n", "  runtime_module: \"../dist/tinychain.esm.js\"\n",
    "  invoke_method: async_invoke\n"]

def settings : List Char := settingLines.flatMap String.toList

def atKey (rest : List Char) : Scanner :=
  ⟨⟨'n' :: 'a' :: 'm' :: 'e' :: ':' :: ' ' :: rest, 1, 0⟩, [], 0, -1, [], none, [], true, 0⟩

def afterKey (rest : List Char) : Scanner :=
  ⟨⟨':' :: ' ' :: rest, 1, 4⟩, [.scalar "name" true], 1, -1, [],
    some ⟨false, 0, byteCount ('n' :: 'a' :: 'm' :: 'e' :: ':' :: ' ' :: rest), 1, 0⟩, [], false, 0⟩

def inValue (column : Nat) (rest : List Char) : Scanner :=
  ⟨⟨rest, 1, column⟩, [.value, .scalar "name" true, .key, .blockMapping], 4, 0, [-1], none, [], false, 0⟩

def afterName (name : String) : Scanner :=
  ⟨⟨settings, 2, 0⟩, [.scalar name true, .value, .scalar "name" true, .key, .blockMapping], 5, 0, [-1], none, [], true, 0⟩

theorem checkKeys_afterKey (n : Nat) (rest : List Char) :
    (skipGap (n + 1) (afterKey rest)).checkKeys = some (afterKey rest) := by
  have hgap : skipGap (n + 1) (afterKey rest) = afterKey rest := rfl
  have hleft : ¬byteCount (':' :: ' ' :: rest) + 1024 < byteCount ('n' :: 'a' :: 'm' :: 'e' :: ':' :: ' ' :: rest) := by
    simp [byteCount_cons, Char.utf8Size]
    omega
  rw [hgap]
  simp [checkKeys, afterKey, checkKey, isStale, hleft]

/-- The steps before the name, with any comment in the first line. -/
theorem run_ofText {w : List Char} (hw : ∀ e ∈ w, isBreak e = false) (n : Nat) (rest : List Char) :
    (ofText (headed w rest)).run (n + 2) = (inValue 5 (' ' :: rest)).run n := by
  have hgap : (skipGap (n + 2) (ofText (headed w rest))).checkKeys = some (atKey rest) := by
    rw [skipGap_comment hw rfl]
    rfl
  have hkey : (atKey rest).token = some (afterKey rest) := rfl
  have hvalue : (afterKey rest).token = some (inValue 5 (' ' :: rest)) := rfl
  calc
    _ = (atKey rest).token.bind (·.run (n + 1)) := run_of_gap hgap rfl rfl
    _ = (afterKey rest).run (n + 1) := by rw [hkey, Option.bind_some]
    _ = (afterKey rest).token.bind (·.run n) := run_of_gap (checkKeys_afterKey n rest) rfl rfl
    _ = (inValue 5 (' ' :: rest)).run n := by rw [hvalue, Option.bind_some]

/-- The space between the key and a name. -/
theorem run_inValue (hspace : isSpace d = false) (hbreak : isBreak d = false) (hhash : d ≠ '#') :
    (inValue 5 (' ' :: d :: rest)).run (n + 1) = (inValue 6 (d :: rest)).token.bind (·.run n) :=
  run_of_gap (by rw [skipGap_space hspace hbreak hhash rfl]; rfl) rfl rfl

/-- The lines after the name do not depend on it. -/
theorem run_afterName (name : String) (n : Nat) :
    (afterName name).run (n + 40) = some
      [.blockMapping, .key, .scalar "name" true, .value, .scalar name true,
        .key, .scalar "version" true, .value, .scalar "0.1.0" false,
        .key, .scalar "sources" true, .value, .scalar "chains" true,
        .key, .scalar "output" true, .value, .scalar "dist" true,
        .key, .scalar "target" true, .value,
        .blockMapping, .key, .scalar "runtime_module" true, .value, .scalar "../dist/tinychain.esm.js" false,
        .key, .scalar "invoke_method" true, .value, .scalar "async_invoke" true, .blockEnd, .blockEnd, .streamEnd] := by
  cbv

theorem follows_settings : Follows settings where
  starts := ⟨'v', settings.tail, rfl, rfl, rfl, by decide⟩
  marks := by
    have hmarks : (settings.all fun c => !(['\x27', '\\', '|', '>'].contains c)) = true := by decide +kernel
    intro x hx hmem
    have hnot := List.all_eq_true.1 hmarks x hmem
    simp only [Bool.not_eq_true', List.contains_eq_mem, decide_eq_false_iff_not] at hnot
    exact hnot hx

theorem toList_newConfiguration (name : String) :
    (Command.Run.newConfiguration name).toList =
      headed " LinkLang Project Configuration".toList (name.toList ++ '\n' :: settings) := by
  have hlines : "
version: \"0.1.0\"

# Where .chain sources live and where generated modules go
sources: chains
output: dist

target:
  runtime_module: \"../dist/tinychain.esm.js\"
  invoke_method: async_invoke
" = "\n" ++ String.join settingLines := by decide +kernel
  have hsettings : (String.join settingLines).toList = settings := by
    simp only [String.toList_join, settings]
  have hconfiguration : Command.Run.newConfiguration name =
      "# LinkLang Project Configuration\nname: " ++ name ++ ("\n" ++ String.join settingLines) :=
    congrArg ("# LinkLang Project Configuration\nname: " ++ name ++ ·) hlines
  rw [hconfiguration, String.toList_append, String.toList_append, String.toList_append, hsettings]
  simp [headed]

/-- A plain scalar as a name. -/
theorem plainScalar_inValue (hspace : isSpace d = false) (hhash : d ≠ '#') (hgo : goesOnPlain false (d :: u) = true)
    (hunbroken : ∀ e ∈ d :: u, isBreak e = false) :
    (inValue 6 (d :: u ++ '\n' :: settings)).plainScalar = some (afterName (String.ofList (d :: u))) := by
  obtain ⟨c, cs, hcs, hc, hc', -⟩ := follows_settings.starts
  have hscan : plain false 1 ⟨d :: u ++ '\n' :: settings, 1, 6⟩ = some ⟨d :: u, true, ⟨settings, 2, 0⟩⟩ := by
    rw [hcs]
    exact plain_of_goesOnPlain hc hc' hspace hhash hgo hunbroken (by decide)
  have hsaved : (inValue 6 (d :: u ++ '\n' :: settings)).saveKey = some (inValue 6 (d :: u ++ '\n' :: settings)) := rfl
  rw [plainScalar, hsaved]
  exact congrArg (Option.bind · _) hscan

theorem token_inValue (hopens : opensPlain (d :: u) = true) (hgo : goesOnPlain false (d :: u) = true)
    (hunbroken : ∀ e ∈ d :: u, isBreak e = false) :
    (inValue 6 (d :: u ++ '\n' :: settings)).token = some (afterName (String.ofList (d :: u))) := by
  rw [List.forall_mem_cons] at hunbroken
  simp only [opensPlain, Bool.and_eq_true, Bool.or_eq_true, Bool.not_eq_true'] at hopens
  obtain ⟨hspace, hmark⟩ := hopens
  have hhash : d ≠ '#' := by
    rintro rfl
    simp [indicators] at hmark
  rw [← plainScalar_inValue hspace hhash hgo (List.forall_mem_cons.2 hunbroken)]
  refine token_of_opener rfl rfl hspace hunbroken.1 ?_
  rcases hmark with hmark | ⟨hmark, hhead⟩
  · exact .inl hmark
  · refine .inr ⟨hmark, ?_⟩
    cases u with
    | nil => cases hhead
    | cons e u =>
      have hword : isSpace e = false := by simpa using hhead
      have hgap : (isSpace e || isBreak e) = false := by rw [hword, hunbroken.2 e (by simp)]; rfl
      exact hgap

/-- The tokens of a configuration, whose name is read after two steps. -/
theorem tokens?_newConfiguration (name : String) :
    tokens? (Command.Run.newConfiguration name) =
      if name.toList.all isAllowed then
        (inValue 5 (' ' :: (name.toList ++ '\n' :: settings))).run (name.toList.length + settings.length + 39)
      else none := by
  have hcomment : (" LinkLang Project Configuration".toList.all fun e => isAllowed e && !isBreak e) = true := by
    decide +kernel
  have hlength : " LinkLang Project Configuration".toList.length = 31 := by decide +kernel
  have hsettings : settings.all isAllowed = true := by decide +kernel
  rw [tokens?, toList_newConfiguration]
  generalize " LinkLang Project Configuration".toList = w at hcomment hlength
  simp only [List.all_eq_true, Bool.and_eq_true, Bool.not_eq_true'] at hcomment
  have hallowed : (headed w (name.toList ++ '\n' :: settings)).all isAllowed = name.toList.all isAllowed := by
    have hw : w.all isAllowed = true := List.all_eq_true.2 fun e he => (hcomment e he).1
    simp only [headed, List.all_cons, List.all_append, List.cons_append, hw, hsettings]
    cases name.toList.all isAllowed <;> rfl
  have hfuel : (headed w (name.toList ++ '\n' :: settings)).length + 1 =
      name.toList.length + settings.length + 39 + 2 := by
    simp only [headed, List.length_cons, List.length_append, hlength]
    omega
  simp only [hallowed, hfuel]
  rw [run_ofText (fun e he => (hcomment e he).2)]
  cases name.toList.all isAllowed <;> rfl

theorem holds_inValue (column : Nat) (rest : List Char) :
    Holds [.blockMapping, .key, .scalar "name" true, .value] [] (inValue column rest) :=
  ⟨rfl, ⟨[], rfl, rfl⟩, by simp [inValue]⟩

/-- A text after the key that is the scalar after its properties is a plain one. -/
theorem opensPlain_of_run {props more : List Token} {b : Bool} (hprops : ∀ t ∈ props, t.isProperty = true)
    (hrun : (inValue 5 (' ' :: (d :: u ++ '\n' :: settings))).run (n + 1) =
      some ([.blockMapping, .key, .scalar "name" true, .value] ++ (props ++ .scalar (String.ofList (d :: u)) b :: more))) :
    opensPlain (d :: u) = true ∧ goesOnPlain false (d :: u) = true ∧ ∀ e ∈ d :: u, isBreak e = false := by
  have hrest : (props ++ .scalar (String.ofList (d :: u)) b :: more).filter Token.isContent =
      [] ++ (props ++ .scalar (String.ofList (d :: u)) b :: more.filter Token.isContent) := by
    have hcontent : props.filter Token.isContent = props :=
      List.filter_eq_self.2 fun t ht => Token.isContent_of_isProperty (hprops t ht)
    rw [List.filter_append, hcontent, List.filter_cons_of_pos rfl, List.nil_append]
  cases hd : isPrelude d with
  | true =>
    have hwithin : Within (' ' :: d :: u) settings (inValue 5 (' ' :: (d :: u ++ '\n' :: settings))).place :=
      .inl ⟨' ' :: d :: u, List.suffix_refl _, rfl⟩
    exact absurd hrun (run_ne_of_isPrelude follows_settings hd (holds_inValue _ _) hwithin hprops hrest)
  | false =>
    have hword : (isSpace d = false ∧ isBreak d = false) ∧ d ≠ '#' := by
      simp only [isPrelude, Bool.or_eq_false_iff] at hd
      refine ⟨hd.1, ?_⟩
      rintro rfl
      cases hd.2
    have hstep : (inValue 5 (' ' :: (d :: u ++ '\n' :: settings))).run (n + 1) =
        (inValue 6 (d :: u ++ '\n' :: settings)).token.bind (·.run n) := run_inValue hword.1.1 hword.1.2 hword.2
    rw [hstep] at hrun
    obtain ⟨s, hs, hrun⟩ := Option.bind_eq_some_iff.1 hrun
    exact opensPlain_of_token follows_settings hd (holds_inValue _ _) rfl rfl rfl rfl hs hrun hprops hrest

end ChainCompiler.Yaml.Scanner

namespace ChainCompiler.Command

open Yaml Yaml.Scanner

def projectOf? (ts : List Yaml.Token) : Option Project :=
  (Read.stream ⟨ts, [], [], [], ["", "!", "!!"]⟩).bind fun x => Project.ofDocument? ⟨x.1, x.2.anchors⟩

theorem bind_ofDocument? (text : String) :
    (Document.ofText? text).bind Project.ofDocument? = (tokens? text).bind projectOf? := by
  unfold Document.ofText?
  cases tokens? text with
  | none => rfl
  | some ts =>
    unfold projectOf?
    simp only [Option.bind_eq_bind, Option.bind_some]
    cases Read.stream ⟨ts, [], [], [], ["", "!", "!!"]⟩ <;> rfl

/-- A plain scalar is read back as the name. -/
theorem ofText_of_isPlainLine {name : String} (h : isPlainLine name.toList = true) :
    Project.ofText (Run.newConfiguration name) = .ok ⟨name, "0.1.0", "chains", "dist", .standard⟩ := by
  have hsettings : 0 < settings.length := by
    obtain ⟨c, cs, hcs, -⟩ := follows_settings.starts
    rw [hcs]
    exact Nat.succ_pos _
  have hproject : (tokens? (Run.newConfiguration name)).bind projectOf? =
      some ⟨name, "0.1.0", "chains", "dist", .standard⟩ := by
    rw [tokens?_newConfiguration]
    simp only [isPlainLine, Bool.and_eq_true, Bool.or_eq_true, List.all_eq_true, Bool.not_eq_true'] at h
    obtain ⟨hallowed, hempty | ⟨hopens, hgo⟩⟩ := h
    · obtain rfl : name = "" := by simpa using hempty
      decide +kernel
    · obtain ⟨cs, rfl⟩ : ∃ cs, name = String.ofList cs := ⟨name.toList, String.ofList_toList.symm⟩
      rw [String.toList_ofList] at hallowed hopens hgo ⊢
      rw [if_pos (List.all_eq_true.2 fun e he => (hallowed e he).1)]
      cases cs with
      | nil => cases hopens
      | cons d u =>
        have hunbroken : ∀ e ∈ d :: u, isBreak e = false := fun e he => (hallowed e he).2
        have hspace : isSpace d = false ∧ d ≠ '#' := by
          simp only [opensPlain, Bool.and_eq_true, Bool.not_eq_true'] at hopens
          refine ⟨hopens.1, ?_⟩
          rintro rfl
          cases hopens.2
        obtain ⟨n, hn⟩ : ∃ n, (d :: u).length + settings.length + 39 = n + 41 :=
          ⟨u.length + (settings.length - 1), by rw [List.length_cons]; omega⟩
        have hrun : (inValue 5 (' ' :: (d :: u ++ '\n' :: settings))).run (n + 41) =
            (inValue 6 (d :: u ++ '\n' :: settings)).token.bind (·.run (n + 40)) :=
          run_inValue hspace.1 (hunbroken d (by simp)) hspace.2
        rw [hn, hrun, token_inValue hopens hgo hunbroken, Option.bind_some, run_afterName]
        rfl
  have hblank : Text.isAllBlank Target.standard.runtimeModule = false ∧
      Text.isAllBlank Target.standard.invokeMethod = false := by
    decide +kernel
  rw [Project.ofText, bind_ofDocument?, hproject]
  simp [Project.blankSetting?, hblank]

theorem exists_tokens_of_ofText {text : String} {project : Project} (h : Project.ofText text = .ok project) :
    ∃ ts, tokens? text = some ts ∧ projectOf? ts = some project := by
  rw [Project.ofText, bind_ofDocument?] at h
  split at h
  · cases h
  · next p hp =>
    split at h
    · cases h
    · cases h
      exact Option.bind_eq_some_iff.1 hp

/-- A name that is read back is a plain scalar. -/
theorem isPlainLine_of_ofText {name : String} {project : Project}
    (h : Project.ofText (Run.newConfiguration name) = .ok project) (hname : project.name = name) :
    isPlainLine name.toList = true := by
  obtain ⟨cs, rfl⟩ : ∃ cs, name = String.ofList cs := ⟨name.toList, String.ofList_toList.symm⟩
  rw [String.toList_ofList]
  obtain ⟨ts, htokens, hproject⟩ := exists_tokens_of_ofText h
  rw [tokens?_newConfiguration, String.toList_ofList] at htokens
  rcases of_ite_eq_some htokens with ⟨hallowed, hrun⟩ | ⟨-, hnone⟩
  · obtain ⟨rest, rfl, -⟩ := run_holds (holds_inValue _ _) hrun
    obtain ⟨⟨root, r⟩, hroot, hproject⟩ := Option.bind_eq_some_iff.1 hproject
    rcases exists_scalar_of_ofDocument? hroot hproject with hempty | ⟨props, b, more, rfl, hprops⟩
    · obtain rfl : cs = [] := by simpa [hname] using hempty
      rfl
    · rw [hname] at hrun
      cases cs with
      | nil => rfl
      | cons d u =>
        obtain ⟨hopens, hgo, hunbroken⟩ := opensPlain_of_run hprops hrun
        have hline : ((d :: u).all fun c => isAllowed c && !isBreak c) = true := by
          rw [List.all_eq_true] at hallowed ⊢
          intro e he
          rw [hallowed e he, hunbroken e he]
          rfl
        rw [isPlainLine, hline, hopens, hgo]
        rfl
  · cases hnone

/-- The directory of a file is one. -/
theorem isDirectory_of_read {f : Files} {p : Path} {l : Location} {n : String} {bytes : ByteArray}
    (hn : Path.IsSegment n) (h : f.Reaches p l) (hread : f.read (p.below [n]) = .ok bytes) : f.isDirectory p = true := by
  obtain ⟨q, hq, -⟩ := Files.read_eq_ok_iff.1 hread
  obtain ⟨r, hr, hlast⟩ := (Files.leads_below hn).1 hq.2
  obtain rfl := hr.unique h.front
  obtain ⟨t, hwalk, hsound, rfl⟩ := Files.exists_walk h
  obtain ⟨es, hes⟩ := Files.here_of_node? hsound hlast.directory
  rw [Files.isDirectory, Files.entry?, hwalk]
  simp only [hes]
  rfl

/-- A project is loaded from the file in its directory. -/
theorem load_of_directory {f : Files} {path : Path} {text : String} (hdirectory : f.isDirectory path = true)
    (hread : f.read (path.join ⟨Project.fileName⟩) = .ok text.toUTF8) :
    load f path = ((Project.ofText text).mapError .invalid).map (⟨·, path⟩) := by
  have hplace : configPlace f path = (path.join ⟨Project.fileName⟩, path) := by
    rw [configPlace, if_pos hdirectory]
  have hexists : f.exists? (path.join ⟨Project.fileName⟩) = true := by
    obtain ⟨q, hq, -⟩ := Files.read_eq_ok_iff.1 hread
    exact Files.exists?_iff.2 ⟨q, hq⟩
  rw [load, hplace]
  simp only [bind, Except.bind, hexists, Files.readText_of_read hread, mapError_ok]
  cases Project.ofText text <;> rfl

/-- A new project has the name that was given or that of its directory. Loading it gives that name back, with the usual
settings, if the name is a plain scalar of one line, and never otherwise. -/
theorem load_run_init {files : Files} {args : List String} {config path : String} {name : Option String}
    (hargs : readArguments args = .ok ⟨config, .init path name⟩) (hexit : (run files args).exit = 0) :
    ∃ l n, (run files args).files.locate ⟨path⟩ = .ok l ∧ (name <|> l.getLast?) = some n ∧
      (isPlainLine n.toList = true →
        load (run files args).files ⟨path⟩ = .ok ⟨⟨n, "0.1.0", "chains", "dist", .standard⟩, ⟨path⟩⟩) ∧
      (isPlainLine n.toList = false →
        ∀ loaded, load (run files args).files ⟨path⟩ = .ok loaded → loaded.project.name ≠ n) := by
  obtain ⟨t, hstart, hfiles⟩ := perform_of_exit hargs hexit
  obtain ⟨l, n, hl, hn, hwritten⟩ := Run.startProject_eq_ok hstart
  have hread : t.files.read (Path.join ⟨path⟩ ⟨Project.fileName⟩) = .ok (Run.newConfiguration n).toUTF8 :=
    hwritten (Path.join ⟨path⟩ ⟨Project.fileName⟩, (Run.newConfiguration n).toUTF8) List.mem_cons_self
  have hbelow : t.files.read (Path.below ⟨path⟩ [Project.fileName]) = .ok (Run.newConfiguration n).toUTF8 := by
    rw [Path.below, String.intercalate_singleton]
    exact hread
  have hdirectory : t.files.isDirectory ⟨path⟩ = true := isDirectory_of_read (by decide) hl hbelow
  have hload := load_of_directory hdirectory hread
  rw [hfiles]
  refine ⟨l, n, Files.locate_eq_ok_iff.2 hl, hn, fun hplain => ?_, fun hplain loaded hloaded hname => ?_⟩
  · rw [hload, ofText_of_isPlainLine hplain]
    rfl
  · rw [hload] at hloaded
    cases hproject : Project.ofText (Run.newConfiguration n) with
    | error e =>
      rw [hproject] at hloaded
      cases hloaded
    | ok project =>
      rw [hproject] at hloaded
      cases hloaded
      rw [isPlainLine_of_ofText hproject hname] at hplain
      cases hplain

theorem load_run_init_ignoring :
    (run (ignoring "" []) ["init"]).exit = 0 ∧
      load (run (ignoring "" []) ["init"]).files ⟨"."⟩ = .ok ⟨⟨"home", "0.1.0", "chains", "dist", .standard⟩, ⟨"."⟩⟩ := by
  have hrun := run_of_ok readArguments_init (startProject_ignoring "" none)
  have hexit : (run (ignoring "" []) ["init"]).exit = 0 := by rw [hrun]
  obtain ⟨l, n, hl, hn, hload, -⟩ := @load_run_init (ignoring "" []) _ _ _ _ readArguments_init hexit
  have hlocate : (run (ignoring "" []) ["init"]).files.locate ⟨"."⟩ = .ok ["home"] := by
    rw [hrun]
    rfl
  rw [hlocate] at hl
  cases hl
  cases hn
  exact ⟨hexit, hload (by decide +kernel)⟩

/-- A name with a colon in it is taken, and the project cannot be loaded. -/
theorem load_run_init_colon :
    (run (ignoring "" []) ["init", "--name", "x: y"]).exit = 0 ∧
      load (run (ignoring "" []) ["init", "--name", "x: y"]).files ⟨"."⟩ = .error (.invalid .malformed) := by
  have hargs : readArguments ["init", "--name", "x: y"] = .ok ⟨Project.fileName, .init "." (some "x: y")⟩ := by
    refine readArguments_of_command (by simp) ?_
    simp only [readAction, Usage.read]
    rfl
  have htokens : tokens? (Run.newConfiguration "x: y") = none := by
    rw [tokens?_newConfiguration]
    decide +kernel
  have hproject : Project.ofText (Run.newConfiguration "x: y") = .error .malformed := by
    rw [Project.ofText, bind_ofDocument?, htokens]
    rfl
  have hread : (ignoring Run.ignoredFiles (addedEntries "x: y")).read (Path.join ⟨"."⟩ ⟨Project.fileName⟩) =
      .ok (Run.newConfiguration "x: y").toUTF8 := rfl
  rw [run_of_ok hargs (startProject_ignoring "" (some "x: y"))]
  refine ⟨rfl, ?_⟩
  have hload := @load_of_directory (ignoring Run.ignoredFiles (addedEntries "x: y")) ⟨"."⟩ _ rfl hread
  rw [hproject] at hload
  exact hload

end ChainCompiler.Command
