import ChainCompiler.Files.Tree

/-! The sources below a directory, at any depth: the files with the extension of sources, in the order of their paths
compared name by name. -/

namespace ChainCompiler

def sourceExtension : String := "chain"

def isSourceName (name : String) : Bool := Path.extension? name == some sourceExtension

def isSource (l : Location) : Bool := l.getLast?.any isSourceName

def inOrder {α : Type} (xs : List (String × List α)) : List α :=
  (xs.mergeSort fun a b => a.1 ≤ b.1).flatMap (·.2)

mutual

/-- The entries at and below one of a name, with their locations from the directory that holds it. A directory comes
before what is below it. -/
def Entry.descendantsAt (name : String) : Entry → List (Location × Entry)
  | .file bytes => [([name], .file bytes)]
  | .directory es => ([name], .directory es) :: (inOrder (descendantsByName es)).map fun x => (name :: x.1, x.2)

def descendantsByName : List (String × Entry) → List (String × List (Location × Entry))
  | [] => []
  | (name, e) :: es => (name, e.descendantsAt name) :: descendantsByName es

end

def Entry.descendants (e : Entry) : List (Location × Entry) := inOrder (descendantsByName e.entries)

def Path.below (p : Path) (l : Location) : Path := p.join ⟨"/".intercalate l⟩

inductive SearchError where
  | noDirectory
  /-- A directory below it that the system does not open. -/
  | unopened (path : Path) (e : SystemError)
  deriving DecidableEq, Repr

namespace Files

/-- The locations of the sources among the entries below a directory. Those that are directories are opened by their
paths when it is their turn. -/
def collect (directory : Path) : List (Location × Entry) → Except SearchError (List Location)
  | [] => .ok []
  | (l, .file _) :: xs => do
    let ls ← collect directory xs
    return if isSource l then l :: ls else ls
  | (l, .directory _) :: xs => do
    (checkPath (directory.below l)).mapError (.unopened (directory.below l))
    collect directory xs

def search (f : Files) (directory : Path) : Except SearchError (List Location) :=
  match f.entry? directory with
  | some (.directory es) => collect directory (Entry.directory es).descendants
  | _ => .error .noDirectory

def sources? (f : Files) (directory : Path) : Option (List Location) := (f.search directory).toOption

end Files

end ChainCompiler
