import ChainCompiler.Command.Places
import ChainCompiler.Command.Run
import ChainCompiler.Files.Changes

/-! The command line. It takes from the disk what the invocation needs, runs, and puts back what the run changed. -/

namespace ChainCompiler.Main

partial def fetch (l : Location) : IO (Option Entry) := do
  let path := (← IO.currentDir) / ("/" ++ "/".intercalate l)
  if ← path.isDir then
    let names := (← path.readDir).toList.map (·.fileName)
    let entries ← names.filterMapM fun name => do
      return (← fetch (l ++ [name])).map (name, ·)
    return some (.directory entries)
  else if ← path.pathExists then
    return some (.file (← IO.FS.readBinFile path))
  else return none

/-- What the disk holds at a location alone: a directory is given without its entries. -/
def fetchFlat (l : Location) : IO (Option Entry) := do
  let path := (← IO.currentDir) / ("/" ++ "/".intercalate l)
  if ← path.isDir then return some (.directory []) else fetch l

/-- Adds an entry of the disk to the tree, unless the tree has one there already. -/
def add (files : Files) (l : Location) (get : Location → IO (Option Entry)) : IO Files := do
  if (files.root.get? l).isSome then return files
  match ← get l with
  | some e => return { files with root := files.root.set e l }
  | none => return files

def addPath (files : Files) (p : Path) : IO Files := do
  let mut files := files
  let mut l := files.start p
  for segment in p.segments do
    if segment = ".." then l := l.dropLast
    else if segment ≠ "" ∧ segment ≠ "." then
      l := l ++ [segment]
      files ← add files l fetchFlat
  return files

def addTree (files : Files) (p : Path) : IO Files := do
  let files ← addPath files p
  match files.locate p with
  | .error _ => return files
  | .ok l =>
    match ← fetch l with
    | some e => return { files with root := files.root.set e l }
    | none => return files

def home : IO Files := do
  let here : Path := ⟨(← IO.currentDir).toString⟩
  let location := here.segments.filter fun s => s ≠ ""
  addPath ⟨.directory [], location⟩ here

def gather (i : Command.Invocation) : IO Files := do
  let files ← i.named.foldlM addPath (← home)
  (i.directories files).foldlM addTree files

def putBack (l : Location) (bytes : Option ByteArray) : IO Unit := do
  let path := (← IO.currentDir) / ("/" ++ "/".intercalate l)
  match bytes with
  | some b => IO.FS.writeBinFile path b
  | none => IO.FS.createDirAll path

end ChainCompiler.Main

open ChainCompiler in
def main (args : List String) : IO UInt32 := do
  let files ← match Command.readArguments args with
    | .ok i => Main.gather i
    | .error _ => Main.home
  let outcome := Command.run files args
  (files.changes outcome.files).forM fun x => Main.putBack x.1 x.2
  IO.print outcome.output
  IO.eprint outcome.errors
  return outcome.exit.toUInt32
