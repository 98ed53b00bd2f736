import ChainCompiler.Files.Tree

/-! What differs between two states of the files: the directories that are new, and the files that are new or hold
something else. -/

namespace ChainCompiler

mutual

/-- The entries at or below a location, each directory before what it holds. A file comes with its bytes. -/
def Entry.listing (l : Location) : Entry → List (Location × Option ByteArray)
  | .file bytes => [(l, some bytes)]
  | .directory es => (l, none) :: listings l es

def listings (l : Location) : List (String × Entry) → List (Location × Option ByteArray)
  | [] => []
  | (name, e) :: es => e.listing (l ++ [name]) ++ listings l es

end

/-- Whether there is a directory, or a file with those bytes, at a location. -/
def Entry.holds (e : Entry) (l : Location) (bytes : Option ByteArray) : Bool :=
  match e.get? l, bytes with
  | some (.file b), some bytes => b == bytes
  | some (.directory _), none => true
  | _, _ => false

def Files.changes (before after : Files) : List (Location × Option ByteArray) :=
  (after.root.listing []).filter fun x => !before.root.holds x.1 x.2

end ChainCompiler
