import ChainCompiler.Command.Session

/-! Compiling a source or all sources of a project. Nothing is written before all has been compiled. -/

namespace ChainCompiler.Command.Run

def sourceName (path : Path) : String := path.fileName?.getD path.text

def compileSource (options : Options) (path : Path) : Run (Except Diagnostic Compiled) := do
  let text ← source path
  return (compile options (sourceName path) text).1.mapError CompileError.diagnostic

def writeModule (path : Path) (c : Compiled) : Run Unit := do
  if let some parent := path.parent? then
    unless parent.text.isEmpty do makeAll parent (.notCreated parent)
  write path c.code (.notWritten path)

/-- The target of a configuration, if there is one, else the usual target. -/
def targetFor (config : Path) : Run Target := do
  if (← files).exists? config then return (← loadProject config).project.target
  else return .standard

/-- Compiles one source; its module stands beside it unless a place is given. -/
def compileFile (config path : Path) (output : Option Path) (debug : Bool) (format : Format) : Run Unit := do
  let target ← targetFor config
  match ← compileSource (target.options debug) path with
  | .ok c => writeModule (output.getD (path.withExtension "js")) c
  | .error d =>
    report path d format
    throw (.notCompiled path)

/-- Compiles the sources at some locations below a directory, and reports those that fail: the modules of the others,
and the number of failures. -/
def compileAll (options : Options) (directory : Path) (format : Format) :
    List Location → Run (List (Location × Compiled) × Nat)
  | [] => return ([], 0)
  | l :: ls => do
    let path := directory.below l
    match ← compileSource options path with
    | .ok c =>
      let (modules, failed) ← compileAll options directory format ls
      return ((l, c) :: modules, failed)
    | .error d =>
      report path d format
      let (modules, failed) ← compileAll options directory format ls
      return (modules, failed + 1)

def writeAll (directory : Path) : List (Location × Compiled) → Run Unit
  | [] => return ()
  | (l, c) :: modules => do
    writeModule ((directory.below l).withExtension "js") c
    writeAll directory modules

def compileProject (config : Path) (debug : Bool) (format : Format) : Run Unit := do
  let loaded ← loadProject config
  let locations ← findSources loaded.sources
  let (modules, failed) ← compileAll (loaded.project.target.options debug) loaded.sources format locations
  if 0 < failed then throw (.someNotCompiled failed locations.length)
  writeAll loaded.output modules

end ChainCompiler.Command.Run
