import ChainCompiler.Command.Arguments
import ChainCompiler.Command.Failure
import ChainCompiler.Compilation

/-! What a command works on: the files and what was printed so far. What it did stays done when it fails. -/

namespace ChainCompiler.Command

structure Session where
  files : Files
  output : String

abbrev Run := ExceptT Failure (StateM Session)

namespace Run

def print (line : String) : Run Unit := modify fun s => { s with output := s.output ++ line ++ "\n" }

def files : Run Files := return (← get).files

def source (path : Path) : Run String := do
  match (← files).readText path with
  | .ok text => return text
  | .error e => throw (.unreadable path e)

def makeAll (path : Path) (failure : SystemError → Failure) : Run Unit := do
  let s ← get
  let (f, result) := s.files.makeAll path
  set { s with files := f }
  match result with
  | .ok () => return ()
  | .error e => throw (failure e)

def write (path : Path) (text : String) (failure : SystemError → Failure) : Run Unit := do
  let s ← get
  match s.files.write path text.toUTF8 with
  | .ok f => set { s with files := f }
  | .error e => throw (failure e)

/-- Prints a diagnostic of a source. The members of a line of JSON are in the order of their names. -/
def report (path : Path) (d : Diagnostic) (format : Format) : Run Unit :=
  match format with
  | .text => print (path.text ++ ": " ++ d.text)
  | .json => print (jsonLine (optionalMember "column" d.column ++ [("file", .text path.text)] ++
      optionalMember "line" d.line ++ [("message", .text d.message), ("stage", .text d.stage.name)]))

end Run

structure Loaded where
  project : Project
  base : Path
  deriving Repr

namespace Loaded

def sources (l : Loaded) : Path := l.base.join ⟨l.project.sources⟩

def output (l : Loaded) : Path := l.base.join ⟨l.project.output⟩

end Loaded

/-- The file and the base of a configuration given by a path to it or to its directory. -/
def configPlace (f : Files) (path : Path) : Path × Path :=
  if f.isDirectory path then (path.join ⟨Project.fileName⟩, path)
  else (path, path.parent?.getD ⟨"."⟩)

def load (f : Files) (path : Path) : Except LoadError Loaded := do
  let (file, base) := configPlace f path
  unless f.exists? file do throw (.missing file)
  let text ← (f.readText file).mapError .unreadable
  let project ← (Project.ofText text).mapError .invalid
  return ⟨project, base⟩

namespace Run

def loadProject (path : Path) : Run Loaded := do
  match load (← files) path with
  | .ok l => return l
  | .error e => throw (.configuration e)

def findSources (directory : Path) : Run (List Location) := do
  match (← files).search directory with
  | .ok ls => return ls
  | .error e => throw (.ofSearch directory e)

end Run

end ChainCompiler.Command
