/-! Paths as texts: names with slashes between them. A path is kept as it was written, since messages repeat it; what
it stands for goes by its segments that count. -/

namespace ChainCompiler

structure Path where
  text : String
  deriving DecidableEq, Repr, Inhabited

namespace Path

def splitSlashes : List Char → List (List Char)
  | [] => [[]]
  | c :: cs =>
    if c = '/' then [] :: splitSlashes cs
    else match splitSlashes cs with
      | [] => [[c]]
      | s :: ss => (c :: s) :: ss

def segments (p : Path) : List String := (splitSlashes p.text.toList).map String.ofList

def isAbsolute (p : Path) : Bool := p.text.toList.head? == some '/'

/-- A path below another one; an absolute path stands for itself. -/
def join (p q : Path) : Path :=
  if q.isAbsolute || p.text.isEmpty then q
  else if p.text.toList.getLast? == some '/' then ⟨p.text ++ q.text⟩
  else ⟨p.text ++ "/" ++ q.text⟩

/-- Whether a segment counts: empty ones do not, and a dot only as the first of a relative path. -/
def counts (s : String) : Bool := s != "" && s != "."

def marked : List String → List (String × Bool)
  | [] => []
  | s :: ss => (s, s != "") :: ss.map fun s => (s, counts s)

/-- The segments in reverse order from the last one that counts, each with whether it counts. -/
def significant (p : Path) : List (String × Bool) :=
  let ms := if p.isAbsolute then (p.segments.drop 1).map fun s => (s, counts s) else marked p.segments
  ms.reverse.dropWhile (!·.2)

def rebuild (p : Path) (reversed : List String) : Path :=
  ⟨(if p.isAbsolute then "/" else "") ++ "/".intercalate reversed.reverse⟩

def parent? (p : Path) : Option Path :=
  match p.significant with
  | [] => none
  | _ :: before => some (p.rebuild ((before.dropWhile (!·.2)).map (·.1)))

def fileName? (p : Path) : Option String :=
  match p.significant with
  | (s, _) :: _ => if s = "." || s = ".." then none else some s
  | [] => none

def splitName (name : String) : String × Option String :=
  let reversed := name.toList.reverse
  let extension := reversed.takeWhile (· != '.')
  match reversed.drop extension.length with
  | _ :: stem =>
    if stem.isEmpty then (name, none) else (String.ofList stem.reverse, some (String.ofList extension.reverse))
  | [] => (name, none)

def extension? (name : String) : Option String := (splitName name).2

/-- A name with another extension. It is put after the dot that the old one stood after; where two dots are left, they
mean the directory above, and that takes no extension. -/
def changeExtension (name extension : String) : String :=
  match splitName name with
  | (stem, some _) => if stem = "." then ".." else stem ++ "." ++ extension
  | (stem, none) => stem ++ "." ++ extension

def withExtension (p : Path) (extension : String) : Path :=
  match p.fileName?, p.significant with
  | some name, _ :: before => p.rebuild (changeExtension name extension :: before.map (·.1))
  | _, _ => p

/-- The path itself and the paths above it, the nearest first; at most `n` of them. -/
def ancestors (p : Path) : Nat → List Path
  | 0 => []
  | n + 1 =>
    match p.parent? with
    | some q => p :: q.ancestors n
    | none => [p]

end Path

end ChainCompiler
