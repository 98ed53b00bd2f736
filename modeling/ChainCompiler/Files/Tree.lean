import ChainCompiler.Files.Path

/-! A file system as a value: a tree of directories and files, with the directory that relative paths start from. The
operations fail as those of an operating system do. -/

namespace ChainCompiler

inductive Entry where
  | file (bytes : ByteArray)
  | directory (entries : List (String × Entry))
  deriving Inhabited

/-- The names that lead from the root to an entry. -/
abbrev Location := List String

namespace Entry

def isDirectory : Entry → Bool
  | .directory _ => true
  | .file _ => false

def entries : Entry → List (String × Entry)
  | .directory es => es
  | .file _ => []

def get? (e : Entry) : Location → Option Entry
  | [] => some e
  | n :: ns => (e.entries.lookup n).bind fun child => child.get? ns

def put (name : String) (e : Entry) : List (String × Entry) → List (String × Entry)
  | [] => [(name, e)]
  | (m, x) :: es =>
    if name = m then (name, e) :: es
    else if name < m then (name, e) :: (m, x) :: es
    else (m, x) :: put name e es

/-- Putting an entry under a name changes what that name leads to, and nothing else. -/
theorem lookup_put (name m : String) (e : Entry) (es : List (String × Entry)) :
    (put name e es).lookup m = if m = name then some e else es.lookup m := by
  induction es with
  | nil =>
    by_cases h : m = name
    · simp [put, h]
    · have hb : (m == name) = false := by simpa using h
      simp [put, List.lookup_cons, h, hb]
  | cons x es ih =>
    obtain ⟨k, y⟩ := x
    by_cases h : m = name
    · subst h
      by_cases hk : m = k
      · simp [put, hk]
      · by_cases hl : m < k
        · simp [put, hk, hl]
        · have hb : (m == k) = false := by simpa using hk
          simpa [put, hk, hl, List.lookup_cons, hb] using ih
    · have hb : (m == name) = false := by simpa using h
      by_cases hk : name = k
      · subst hk
        simp [put, List.lookup_cons, hb, h]
      · by_cases hl : name < k
        · simp [put, hk, hl, List.lookup_cons, hb, h]
        · simp only [h, if_false] at ih
          simp [put, hk, hl, List.lookup_cons, h, ih]

/-- The tree with another entry at a location, below directories that are there. -/
def set (e : Entry) (new : Entry) : Location → Entry
  | [] => new
  | n :: ns =>
    match e with
    | .file b => .file b
    | .directory es =>
      match es.lookup n with
      | some child => .directory (put n (child.set new ns) es)
      | none => if ns.isEmpty then .directory (put n new es) else .directory es

end Entry

inductive SystemError where
  | noEntry
  | exists
  | notDirectory
  | isDirectory
  | nameTooLong
  /-- A path with a NUL in it does not reach the system at all. -/
  | nulInName
  deriving DecidableEq, Repr

def SystemError.text : SystemError → String
  | .noEntry => "No such file or directory (os error 2)"
  | .exists => "File exists (os error 17)"
  | .notDirectory => "Not a directory (os error 20)"
  | .isDirectory => "Is a directory (os error 21)"
  | .nameTooLong => "File name too long (os error 36)"
  | .nulInName => "file name contained an unexpected NUL byte"

inductive ReadError where
  | system (e : SystemError)
  | notText
  deriving DecidableEq, Repr

def ReadError.text : ReadError → String
  | .system e => e.text
  | .notText => "stream did not contain valid UTF-8"

/-- The way to an entry: the names from the root on, each with what it leads to, the last first. -/
abbrev Trail := List (String × Entry)

def Trail.location (t : Trail) : Location := (t.map (·.1)).reverse

structure Files where
  root : Entry
  /-- The working directory. -/
  home : Location
  deriving Inhabited

namespace Files

def nameLimit : Nat := 255

def pathLimit : Nat := 4095

def isTooLong (name : String) : Bool := nameLimit < name.utf8ByteSize

def checkPath (p : Path) : Except SystemError Unit :=
  if p.text.toList.contains '\x00' then .error .nulInName
  else if p.text.isEmpty then .error .noEntry
  else if pathLimit < p.text.utf8ByteSize then .error .nameTooLong
  else .ok ()

def here (f : Files) : Trail → Entry
  | [] => f.root
  | (_, e) :: _ => e

/-- One segment further on a trail, which has to lead to a directory for that. -/
def step (f : Files) (t : Trail) (segment : String) : Except SystemError Trail :=
  match f.here t with
  | .file _ => .error .notDirectory
  | .directory es =>
    if segment = "" || segment = "." then .ok t
    else if segment = ".." then .ok t.tail
    else if isTooLong segment then .error .nameTooLong
    else match es.lookup segment with
      | some e => .ok ((segment, e) :: t)
      | none => .error .noEntry

def start (f : Files) (p : Path) : Location := if p.isAbsolute then [] else f.home

def follow (f : Files) (p : Path) (segments : List String) : Except SystemError Trail :=
  (f.start p ++ segments).foldlM f.step []

def walk (f : Files) (p : Path) : Except SystemError Trail := do
  checkPath p
  f.follow p p.segments

def locate (f : Files) (p : Path) : Except SystemError Location := (f.walk p).map Trail.location

def entry? (f : Files) (p : Path) : Option Entry :=
  match f.walk p with
  | .ok t => some (f.here t)
  | .error _ => none

def exists? (f : Files) (p : Path) : Bool := (f.entry? p).isSome

def isDirectory (f : Files) (p : Path) : Bool := (f.entry? p).any Entry.isDirectory

def read (f : Files) (p : Path) : Except SystemError ByteArray := do
  match f.here (← f.walk p) with
  | .file bytes => .ok bytes
  | .directory _ => .error .isDirectory

def readText (f : Files) (p : Path) : Except ReadError String := do
  match String.fromUTF8? (← (f.read p).mapError .system) with
  | some s => .ok s
  | none => .error .notText

/-- Where a path would put an entry. -/
structure Target where
  /-- The directory. -/
  parent : Location
  /-- What is in it. -/
  entries : List (String × Entry)
  /-- The name for the entry, unless the path ends in dots or is the root. -/
  name : Option String
  /-- Whether a slash follows the name. -/
  slash : Bool

def target (f : Files) (p : Path) : Except SystemError Target := do
  checkPath p
  match p.segments.reverse.dropWhile (·.isEmpty) with
  | [] => return ⟨[], f.root.entries, none, true⟩
  | last :: before =>
    let t ← f.follow p before.reverse
    match f.here t with
    | .file _ => throw .notDirectory
    | .directory es =>
      let name := if last = "." || last = ".." then none else some last
      return ⟨t.location, es, name, p.text.toList.getLast? == some '/'⟩

def makeDirectory (f : Files) (p : Path) : Except SystemError Files := do
  let t ← f.target p
  match t.name with
  | none => throw .exists
  | some name =>
    if isTooLong name then throw .nameTooLong
    if (t.entries.lookup name).isSome then throw .exists
    return { f with root := f.root.set (.directory []) (t.parent ++ [name]) }

/-- Makes the first of the directories, and before that the others as far as they are missing. -/
def makeDirectories (f : Files) : List Path → Files × Except SystemError Unit
  | [] => (f, .error .noEntry)
  | p :: above =>
    if p.text.isEmpty then (f, .ok ())
    else match f.makeDirectory p with
      | .ok f => (f, .ok ())
      | .error .noEntry =>
        match f.makeDirectories above with
        | (f, .error e) => (f, .error e)
        | (f, .ok ()) =>
          match f.makeDirectory p with
          | .ok f => (f, .ok ())
          | .error e => (f, if f.isDirectory p then .ok () else .error e)
      | .error e => (f, if f.isDirectory p then .ok () else .error e)

def makeAll (f : Files) (p : Path) : Files × Except SystemError Unit :=
  f.makeDirectories (p.ancestors (p.text.length + 1))

def write (f : Files) (p : Path) (bytes : ByteArray) : Except SystemError Files := do
  let t ← f.target p
  match t.name, t.slash with
  | some name, false =>
    if isTooLong name then throw .nameTooLong
    if (t.entries.lookup name).any Entry.isDirectory then throw .isDirectory
    return { f with root := f.root.set (.file bytes) (t.parent ++ [name]) }
  | _, _ => throw .isDirectory

end Files

end ChainCompiler
