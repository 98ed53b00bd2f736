import ChainCompiler.Yaml.Scalar

/-! The tokens of a YAML text. Indentation is turned into tokens that open and close blocks. A key without its own mark
is known only when a colon follows it, so the tokens that announce it are put in front of it then. -/

namespace ChainCompiler.Yaml

inductive Token where
  | version (major minor : Nat)
  | tagDirective (handle : String)
  | documentStart
  | documentEnd
  | blockSequence
  | blockMapping
  | blockEnd
  | flowSequence
  | flowSequenceEnd
  | flowMapping
  | flowMappingEnd
  | blockEntry
  | flowEntry
  | key
  | value
  | anchor (name : String)
  | alias (name : String)
  | tag (handle : String)
  | scalar (text : String) (plain : Bool)
  | streamEnd
  deriving DecidableEq, Repr, Inhabited

/-- Where a key may have started: the number of tokens before it, the bytes from there to the end of the text, and its
place. A key that starts a line of a block is required to be one. -/
structure KeyStart where
  required : Bool
  tokens : Nat
  left : Nat
  line : Nat
  column : Nat
  deriving Repr, Inhabited

structure Scanner where
  place : Place
  /-- The tokens so far, the latest first. -/
  tokens : List Token
  /-- The number of tokens so far. -/
  count : Nat
  /-- The column of the innermost block, -1 outside of all. -/
  indent : Int
  /-- The columns of the blocks around it. -/
  outer : List Int
  /-- The possible key of the innermost flow collection, or of the block. -/
  keyStart : Option KeyStart
  /-- Those of the collections around it. -/
  outerKeys : List (Option KeyStart)
  /-- Whether a key may start here. -/
  keyAllowed : Bool
  /-- The number of flow collections around this place. -/
  flow : Nat
  deriving Repr, Inhabited

namespace Scanner

def ofText (cs : List Char) : Scanner := ⟨.ofText cs, [], 0, -1, [], none, [], true, 0⟩

def emit (s : Scanner) (t : Token) : Scanner := { s with tokens := t :: s.tokens, count := s.count + 1 }

def advance (s : Scanner) (n : Nat) : Scanner := { s with place := s.place.advance n }

def insertAt (s : Scanner) (n : Nat) (t : Token) : Scanner :=
  let k := s.count - n
  { s with tokens := s.tokens.take k ++ t :: s.tokens.drop k, count := s.count + 1 }

/-- A byte order mark may start a line. It is passed over and counts as a column. -/
def skipMark (p : Place) : Place := if p.column = 0 && p.isAt '\ufeff' then p.advance else p

/-- Passes over spaces, comments and line breaks. A tab does not count as a space where a key may start a line. -/
def skipGap : Nat → Scanner → Scanner
  | 0, s => s
  | n + 1, s =>
    let p := (skipMark s.place).skipWhile fun c => c == ' ' || ((s.flow ≠ 0 || !s.keyAllowed) && c == '\t')
    let p := if p.isAt '#' then p.skipLine else p
    if p.isBreakHere then
      skipGap n { s with place := p.readBreak.2, keyAllowed := s.keyAllowed || s.flow = 0 }
    else { s with place := p }

/-- A key has to be on one line and within 1024 bytes. It is too late for one at a line, with so many bytes left. -/
def isStale (line left : Nat) (k : KeyStart) : Bool := k.line < line || left + 1024 < k.left

/-- Gives up a possible key that can no longer be one; fails if it was required. -/
def checkKey (line left : Nat) : Option KeyStart → Option (Option KeyStart)
  | none => some none
  | some k => if isStale line left k then if k.required then none else some none else some (some k)

def checkKeys (s : Scanner) : Option Scanner := do
  let left := byteCount s.place.rest
  let top ← checkKey s.place.line left s.keyStart
  let others ← s.outerKeys.mapM (checkKey s.place.line left)
  return { s with keyStart := top, outerKeys := others }

/-- The key that was possible is none; fails if it was required. -/
def dropKey (s : Scanner) : Option Scanner :=
  match s.keyStart with
  | none => some s
  | some k => if k.required then none else some { s with keyStart := none }

/-- Notes that a key may start here. -/
def saveKey (s : Scanner) : Option Scanner :=
  if s.keyAllowed then do
    let s ← s.dropKey
    let required := s.flow = 0 && s.indent = s.place.column
    return { s with keyStart := some ⟨required, s.count, byteCount s.place.rest, s.place.line, s.place.column⟩ }
  else some s

def closeBlocks (column : Int) : List Int → Scanner → Scanner
  | [], s => s
  | i :: outer, s =>
    if s.flow = 0 && column < s.indent then
      closeBlocks column outer { s.emit .blockEnd with indent := i, outer := outer }
    else s

def unroll (s : Scanner) (column : Int) : Scanner := closeBlocks column s.outer s

/-- Opens a block at a column further in than the innermost one, its token put in after the first `n` tokens. -/
def roll (s : Scanner) (column : Nat) (n : Nat) (t : Token) : Scanner :=
  if s.flow = 0 && s.indent < column then
    { s.insertAt n t with indent := column, outer := s.indent :: s.outer }
  else s

def rollHere (s : Scanner) (t : Token) : Scanner := s.roll s.place.column s.count t

def setAllowed (s : Scanner) (b : Bool) : Scanner := { s with keyAllowed := b }

def flowStart (s : Scanner) (t : Token) : Option Scanner := do
  let s ← s.saveKey
  let s := { s with outerKeys := s.keyStart :: s.outerKeys, keyStart := none, flow := s.flow + 1, keyAllowed := true }
  return (s.emit t).advance 1

def flowEnd (s : Scanner) (t : Token) : Option Scanner := do
  let s ← s.dropKey
  let s :=
    match s.outerKeys with
    | k :: ks => { s with keyStart := k, outerKeys := ks, flow := s.flow - 1 }
    | [] => s
  return ((s.setAllowed false).emit t).advance 1

def flowEntry (s : Scanner) : Option Scanner := do
  let s ← s.dropKey
  return ((s.setAllowed true).emit .flowEntry).advance 1

def blockEntry (s : Scanner) : Option Scanner := do
  guard (s.flow ≠ 0 || s.keyAllowed)
  let s ← (s.rollHere .blockSequence).dropKey
  return ((s.setAllowed true).emit .blockEntry).advance 1

def keyMark (s : Scanner) : Option Scanner := do
  guard (s.flow ≠ 0 || s.keyAllowed)
  let s ← (s.rollHere .blockMapping).dropKey
  return ((s.setAllowed (s.flow = 0)).emit .key).advance 1

def valueMark (s : Scanner) : Option Scanner :=
  match s.keyStart with
  | some k =>
    let s := (s.insertAt k.tokens .key).roll k.column k.tokens .blockMapping
    some (({ s with keyStart := none, keyAllowed := false }.emit .value).advance 1)
  | none => do
    guard (s.flow ≠ 0 || s.keyAllowed)
    let s := s.rollHere .blockMapping
    return ((s.setAllowed (s.flow = 0)).emit .value).advance 1

/-- A scalar that was read, as a token. A plain one with a line break after it lets a key start. -/
def takeScalar (s : Scanner) (r : Scanned) (isPlain : Bool) : Scanner :=
  { s with place := r.place, keyAllowed := s.keyAllowed || r.broken }.emit (.scalar (String.ofList r.text) isPlain)

def plainScalar (s : Scanner) : Option Scanner := do
  let s := (← s.saveKey).setAllowed false
  return s.takeScalar (← plain (s.flow ≠ 0) (s.indent + 1) s.place) true

def quotedScalar (single : Bool) (s : Scanner) : Option Scanner := do
  let s := (← s.saveKey).setAllowed false
  return s.takeScalar (← quoted single s.place) false

def blockScalar (literal : Bool) (s : Scanner) : Option Scanner := do
  let s := (← s.dropKey).setAllowed true
  return s.takeScalar (← block literal s.indent s.place) false

/-- The name of an anchor or an alias, which a space or a mark has to follow. -/
def name (s : Scanner) (t : String → Token) : Option Scanner := do
  let s := (← s.saveKey).setAllowed false
  let (cs, p) := s.place.advance.span isNameChar
  guard (!cs.isEmpty && (p.isGap || p.isAtAny ['?', ':', ',', ']', '\x7d', '%', '@', '\x60']))
  return { s with place := p }.emit (t (String.ofList cs))

/-- A character of a tag; a tag in angle brackets may hold three more. -/
def isTagChar (verbatim : Bool) (c : Char) : Bool :=
  isNameChar c || [';', '/', '?', ':', '@', '&', '=', '+', '$', '.', '!', '~', '*', '\x27', '(', ')'].contains c ||
    (verbatim && [',', '[', ']'].contains c)

def byte? (p : Place) : Option Nat := do
  guard (p.isAt '%')
  let digits := (p.rest.drop 1).take 2
  guard (digits.length = 2)
  hexNumber? digits

def moreBytes? (first : Nat) : Option Nat :=
  if first < 0x80 then some 0
  else if 0xc0 ≤ first && first < 0xe0 then some 1
  else if 0xe0 ≤ first && first < 0xf0 then some 2
  else if 0xf0 ≤ first && first < 0xf8 then some 3
  else none

def skipBytes : Nat → Place → Option Place
  | 0, p => some p
  | n + 1, p => do
    let b ← byte? p
    guard (0x80 ≤ b && b < 0xc0)
    skipBytes n (p.advance 3)

def skipCoded (p : Place) : Option Place := do
  skipBytes (← moreBytes? (← byte? p)) (p.advance 3)

/-- The characters of a tag, in which a percent sign starts a character written byte by byte. -/
def tagSpan (verbatim : Bool) : Nat → Place → Option Place
  | 0, p => some p
  | n + 1, p =>
    if p.isAt '%' then do tagSpan verbatim n (← skipCoded p)
    else if (p.peek? 0).any (isTagChar verbatim) then tagSpan verbatim n p.advance
    else some p

def readTag (p : Place) : Option (String × Place) :=
  if p.isAt '<' 1 then do
    let start := p.advance 2
    let q ← tagSpan true start.rest.length start
    guard (q.rest.length ≠ start.rest.length && q.isAt '>')
    return ("", q.advance)
  else
    let (cs, q) := p.advance.span isNameChar
    if q.isAt '!' then do
      let start := q.advance
      let r ← tagSpan false start.rest.length start
      guard (r.rest.length ≠ start.rest.length)
      return (String.ofList ('!' :: cs ++ ['!']), r)
    else do
      let r ← tagSpan false q.rest.length q
      return ("!", r)

def tagProperty (s : Scanner) : Option Scanner := do
  let s := (← s.saveKey).setAllowed false
  let (handle, p) ← readTag s.place
  guard (p.isGap || (s.flow ≠ 0 && p.isAt ','))
  return { s with place := p }.emit (.tag handle)

/-- A boundary of a document closes all blocks. -/
def boundary (s : Scanner) (t : Token) : Option Scanner := do
  let s ← (s.unroll (-1)).dropKey
  return ((s.setAllowed false).emit t).advance 3

def readNumber (p : Place) : Option (Nat × Place) := do
  let (cs, q) := p.span Char.isDigit
  guard (0 < cs.length && cs.length ≤ 9)
  return (cs.foldl (fun n c => n * 10 + (c.toNat - 48)) 0, q)

def versionDirective (p : Place) : Option (Token × Place) := do
  let (major, q) ← readNumber (p.skipWhile isSpace)
  guard (q.isAt '.')
  let (minor, r) ← readNumber q.advance
  return (.version major minor, r)

/-- A handle is a name between exclamation marks, or one such mark. -/
def tagDirective (p : Place) : Option (Token × Place) := do
  let p := p.skipWhile isSpace
  guard (p.isAt '!')
  let (cs, q) := p.advance.span isNameChar
  guard (q.isAt '!' || cs.isEmpty)
  let (handle, q) := if q.isAt '!' then ('!' :: cs ++ ['!'], q.advance) else (['!'], q)
  guard (q.peek? 0 |>.any isSpace)
  let start := q.skipWhile isSpace
  let r ← tagSpan true start.rest.length start
  guard (r.rest.length ≠ start.rest.length && r.isGap)
  return (.tagDirective (String.ofList handle), r)

def directiveOf (name : List Char) (p : Place) : Option (Token × Place) :=
  if name = ['Y', 'A', 'M', 'L'] then versionDirective p
  else if name = ['T', 'A', 'G'] then tagDirective p
  else none

/-- A directive takes its whole line. -/
def directive (s : Scanner) : Option Scanner := do
  let s := (← (s.unroll (-1)).dropKey).setAllowed false
  let (cs, p) := s.place.advance.span isNameChar
  guard (!cs.isEmpty && p.isGap)
  let (t, p) ← directiveOf cs p
  let p := p.skipWhile isSpace
  let p := if p.isAt '#' then p.skipLine else p
  guard p.isLineEnd
  return { s with place := p.readBreak.2 }.emit t

def startsPlain (s : Scanner) : Bool :=
  let p := s.place
  let special := ['-', '?', ':', ',', '[', ']', '\x7b', '\x7d', '#', '&', '*', '!', '|', '>', '\x27', '"', '%', '@', '\x60']
  (!p.isGap && !p.isAtAny special) || (p.isAt '-' && !(p.peek? 1).any isSpace) ||
    (s.flow = 0 && p.isAtAny ['?', ':'] && !p.isGap 1)

def token (s : Scanner) : Option Scanner :=
  let p := s.place
  if p.column = 0 && p.isAt '%' then s.directive
  else if p.isTriple '-' then s.boundary .documentStart
  else if p.isTriple '.' then s.boundary .documentEnd
  else if p.isAt '[' then s.flowStart .flowSequence
  else if p.isAt '\x7b' then s.flowStart .flowMapping
  else if p.isAt ']' then s.flowEnd .flowSequenceEnd
  else if p.isAt '\x7d' then s.flowEnd .flowMappingEnd
  else if p.isAt ',' then s.flowEntry
  else if p.isAt '-' && p.isGap 1 then s.blockEntry
  else if p.isAt '?' && (s.flow ≠ 0 || p.isGap 1) then s.keyMark
  else if p.isAt ':' && (s.flow ≠ 0 || p.isGap 1) then s.valueMark
  else if p.isAt '*' then s.name .alias
  else if p.isAt '&' then s.name .anchor
  else if p.isAt '!' then s.tagProperty
  else if p.isAt '|' && s.flow = 0 then s.blockScalar true
  else if p.isAt '>' && s.flow = 0 then s.blockScalar false
  else if p.isAt '\x27' then s.quotedScalar true
  else if p.isAt '"' then s.quotedScalar false
  else if s.startsPlain then s.plainScalar
  else none

/-- The end of the text closes all blocks. -/
def finish (s : Scanner) : Option (List Token) := do
  let s ← (s.unroll (-1)).dropKey
  return (s.emit .streamEnd).tokens.reverse

/-- The tokens from a place on. Each takes a character, so the characters left bound their number. -/
def run (s : Scanner) : Nat → Option (List Token)
  | 0 => none
  | n + 1 => do
    let s ← (skipGap (n + 1) s).checkKeys
    let s := s.unroll s.place.column
    if s.place.atEnd then s.finish else (← s.token).run n

end Scanner

/-- The tokens of a text, all of whose characters have to be allowed ones. -/
def tokens? (text : String) : Option (List Token) := do
  let cs := text.toList
  guard (cs.all isAllowed)
  (Scanner.ofText cs).run (cs.length + 1)

end ChainCompiler.Yaml
