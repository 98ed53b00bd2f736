import ChainCompiler.Yaml.Place

/-! The scalars of YAML: plain ones, those in quotes, and blocks of lines. Each reader starts at the first character of
its scalar and gives the contents and the place after it; it fails on a scalar that is not well formed. -/

namespace ChainCompiler.Yaml

/-- A run of spaces and line breaks inside a scalar: the spaces before the first break, that break, and the others. -/
structure Gap where
  spaces : List Char
  first : Option (List Char)
  more : List Char
  deriving Repr

namespace Gap

def empty : Gap := ⟨[], none, []⟩

/-- What the run counts as: one break is a space, more are breaks without the first. -/
def joined (g : Gap) : List Char :=
  match g.first with
  | none => g.spaces
  | some lead =>
    if lead = ['\n'] then if g.more.isEmpty then [' '] else g.more
    else lead ++ g.more

/-- Reads a run to its end. Before column `indent` of a new line no tab may stand. -/
def read (indent : Int) : Nat → Gap → Place → Option (Gap × Place)
  | 0, g, p => some (g, p)
  | n + 1, g, p =>
    if p.isSpaceHere then
      if g.first.isSome then
        if p.isAt '\t' && (p.column : Int) < indent then none
        else read indent n g p.advance
      else read indent n { g with spaces := g.spaces ++ p.rest.take 1 } p.advance
    else if p.isBreakHere then
      let (b, q) := p.readBreak
      if g.first.isSome then read indent n { g with more := g.more ++ b } q
      else read indent n ⟨[], some b, g.more⟩ q
    else some (g, p)

end Gap

def flowMarks : List Char := [',', '[', ']', '\x7b', '\x7d']

/-- The length of a plain scalar up to the next space. A colon ends it before a space; in a flow collection no mark
may follow a colon. -/
def plainLength? (flow : Bool) : List Char → Option Nat
  | [] => some 0
  | c :: cs =>
    let colonGap := c == ':' && (cs.head?.all fun d => isSpace d || isBreak d)
    let colonMark := c == ':' && (cs.head?.any fun d => flowMarks.contains d || d == '?')
    if isSpace c || isBreak c || colonGap then some 0
    else if flow && colonMark then none
    else if flow && flowMarks.contains c then some 0
    else (plainLength? flow cs).map (· + 1)

/-- A scalar that was read: its contents, whether a line break came after it, and the place after it. -/
structure Scanned where
  text : List Char
  broken : Bool
  place : Place
  deriving Repr

/-- A plain scalar from a gap in it on. It goes over line breaks as long as the lines are indented to `indent` or in a
flow collection. -/
def plainFrom (flow : Bool) (indent : Int) : Nat → Gap → Place → Option Scanned
  | 0, g, p => some ⟨[], g.first.isSome, p⟩
  | n + 1, g, p =>
    if p.isBoundary || p.isAt '#' then some ⟨[], g.first.isSome, p⟩
    else do
      let k ← plainLength? flow p.rest
      let word := if k = 0 then [] else g.joined ++ p.rest.take k
      let g := if k = 0 then g else .empty
      let q := p.advance k
      if !(q.isSpaceHere || q.isBreakHere) then return ⟨word, g.first.isSome, q⟩
      let (g, r) ← Gap.read indent n g q
      if !flow && (r.column : Int) < indent then return ⟨word, g.first.isSome, r⟩
      let more ← plainFrom flow indent n g r
      return { more with text := word ++ more.text }

def plain (flow : Bool) (indent : Int) (p : Place) : Option Scanned :=
  plainFrom flow indent (p.rest.length + 1) .empty p

def hexValue? (c : Char) : Option Nat :=
  if c.isDigit then some (c.toNat - 48)
  else if 'a' ≤ c ∧ c ≤ 'f' then some (c.toNat - 87)
  else if 'A' ≤ c ∧ c ≤ 'F' then some (c.toNat - 55)
  else none

def hexNumber? (cs : List Char) : Option Nat :=
  cs.foldlM (fun n c => (hexValue? c).map (n * 16 + ·)) 0

def charOf? (n : Nat) : Option Char :=
  if h : n.isValidChar then some (Char.ofNatAux n h) else none

def escapes : List (Char × Char) :=
  [('0', '\x00'), ('a', '\x07'), ('b', '\x08'), ('t', '\t'), ('\t', '\t'), ('n', '\n'), ('v', '\x0b'), ('f', '\x0c'),
    ('r', '\r'), ('e', '\x1b'), (' ', ' '), ('"', '"'), ('/', '/'), ('\\', '\\'), ('N', '\u0085'), ('_', '\u00a0'),
    ('L', '\u2028'), ('P', '\u2029')]

def codeEscapes : List (Char × Nat) := [('x', 2), ('u', 4), ('U', 8)]

/-- The character written by an escape that starts here, and the length of the escape. -/
def escape? (p : Place) : Option (Char × Nat) := do
  let c ← p.peek? 1
  match escapes.lookup c with
  | some d => return (d, 2)
  | none =>
    let k ← codeEscapes.lookup c
    let digits := (p.rest.drop 2).take k
    guard (digits.length = k)
    return (← charOf? (← hexNumber? digits), k + 2)

/-- The characters of a quoted scalar up to a space, its end or an escaped line break. -/
def quotedRun (single : Bool) : Nat → Place → Option (List Char × Place)
  | 0, p => some ([], p)
  | n + 1, p =>
    let go := fun (cs : List Char) (k : Nat) => (quotedRun single n (p.advance k)).map fun (more, q) => (cs ++ more, q)
    if p.isGap then some ([], p)
    else if single then
      if p.isAt '\x27' then if p.isAt '\x27' 1 then go ['\x27'] 2 else some ([], p)
      else go (p.rest.take 1) 1
    else if p.isAt '"' then some ([], p)
    else if p.isAt '\\' then
      if (p.peek? 1).any isBreak then some ([], p)
      else do
        let (c, k) ← escape? p
        go [c] k
    else go (p.rest.take 1) 1

/-- A quoted scalar after its opening quote, up to and with the closing one. -/
def quotedFrom (single : Bool) : Nat → Place → Option Scanned
  | 0, _ => none
  | n + 1, p =>
    if p.isBoundary || p.atEnd then none
    else do
      let (cs, q) ← quotedRun single n p
      if q.isAt (if single then '\x27' else '"') then return ⟨cs, false, q.advance⟩
      let escaped := q.isAt '\\'
      let start : Gap × Place := if escaped then (⟨[], some [], []⟩, q.advance.readBreak.2) else (.empty, q)
      let (g, r) ← Gap.read 0 n start.1 start.2
      let more ← quotedFrom single n r
      return { more with text := cs ++ g.joined ++ more.text }

def quoted (single : Bool) (p : Place) : Option Scanned :=
  quotedFrom single (p.rest.length + 1) p.advance

/-- What becomes of the line breaks at the end of a block. -/
inductive Chomping where
  | strip
  | clip
  | keep
  deriving DecidableEq, Repr

def chomping? (p : Place) : Option Chomping :=
  if p.isAt '+' then some .keep else if p.isAt '-' then some .strip else none

def digit? (p : Place) : Option Nat :=
  (p.peek? 0).bind fun c => if c.isDigit then some (c.toNat - 48) else none

/-- The header of a block after its first character: how it ends, its indentation if given, and the next line. -/
def blockHeader (p : Place) : Option (Chomping × Nat × Place) := do
  let (chomping, increment, q) :=
    match chomping? p with
    | some c =>
      match digit? p.advance with
      | some d => (c, some d, p.advance 2)
      | none => (c, none, p.advance)
    | none =>
      match digit? p with
      | some d =>
        match chomping? p.advance with
        | some c => (c, some d, p.advance 2)
        | none => (.clip, some d, p.advance)
      | none => (.clip, none, p)
  guard (increment ≠ some 0)
  let q := q.skipWhile isSpace
  let q := if q.isAt '#' then q.skipLine else q
  guard q.isLineEnd
  return (chomping, increment.getD 0, q.readBreak.2)

/-- Empty lines in front of a block's next line, with the widest indentation among them. An `indent` of zero is not
yet known. -/
def blockBreaks (indent : Nat) : Nat → List Char → Nat → Place → Option (List Char × Nat × Place)
  | 0, breaks, widest, p => some (breaks, widest, p)
  | n + 1, breaks, widest, p =>
    let room := if indent = 0 then p.rest.length else indent - p.column
    let q := p.advance ((p.rest.take room).takeWhile (· == ' ')).length
    let widest := max widest q.column
    if (indent = 0 || q.column < indent) && q.isAt '\t' then none
    else if q.isBreakHere then
      let (b, r) := q.readBreak
      blockBreaks indent n (breaks ++ b) widest r
    else some (breaks, widest, q)

/-- The lines of a block, joined. `lead` is the break after the line before, `breaks` those of the empty lines after
that, and `indented` says whether that line began with a space. -/
def blockLines (literal : Bool) (indent : Nat) (chomping : Chomping) :
    Nat → List Char → List Char → Bool → Place → Option (List Char × Place)
  | 0, _, _, _, _ => none
  | n + 1, lead, breaks, indented, p =>
    if p.column = indent && !p.atEnd then do
      let spaced := p.isSpaceHere
      let fold := !literal && lead = ['\n'] && !indented && !spaced
      let glue := if fold then if breaks.isEmpty then [' '] else [] else lead
      let (line, q) := p.span fun c => !isBreak c
      let (lead', r) := q.readBreak
      let (breaks', _, s) ← blockBreaks indent n [] 0 r
      let (more, t) ← blockLines literal indent chomping n lead' breaks' spaced s
      return (glue ++ breaks ++ line ++ more, t)
    else
      some ((if chomping = .strip then [] else lead) ++ (if chomping = .keep then breaks else []), p)

/-- A block of lines, literal or folded, whose parent is indented by `parent`. -/
def block (literal : Bool) (parent : Int) (p : Place) : Option Scanned := do
  let (chomping, increment, q) ← blockHeader p.advance
  let given : Nat := if increment = 0 then 0 else (max parent 0).toNat + increment
  let (breaks, widest, r) ← blockBreaks given (q.rest.length + 1) [] 0 q
  let indent := if given = 0 then max widest (max (parent + 1).toNat 1) else given
  let (text, s) ← blockLines literal indent chomping (r.rest.length + 1) [] breaks false r
  return ⟨text, false, s⟩

end ChainCompiler.Yaml
