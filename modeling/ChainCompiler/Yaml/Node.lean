import ChainCompiler.Yaml.Token

/-! The nodes of a YAML text: scalars, sequences and mappings. A node with an anchor can be mentioned again by an alias;
aliases stay in the tree as the number of the anchor, so that a node may mention itself. -/

namespace ChainCompiler.Yaml

inductive Node where
  | scalar (text : String) (plain : Bool)
  | sequence (items : List Node)
  | mapping (entries : List (Node × Node))
  | alias (anchor : Nat)
  deriving Repr, Inhabited

/-- A text as a node, with the nodes that have anchors. -/
structure Document where
  root : Node
  anchors : List (Nat × Node)
  deriving Repr, Inhabited

def Document.resolve (d : Document) : Node → Node
  | .alias n => (d.anchors.lookup n).getD (.alias n)
  | node => node

/-- An anchor: the number that aliases mention it by, and its place among all anchors. A number is that of the names
known before, so a name that is given again makes numbers meet; such a number stands for the node that starts last. -/
structure Anchor where
  number : Nat
  place : Nat
  deriving DecidableEq, Repr, Inhabited

/-- What is left of the tokens, the numbers of the names that anchors have, all anchors (the latest first), the nodes
that have them, and the handles that tags may have. -/
structure Reader where
  tokens : List Token
  names : List (String × Nat)
  starts : List Anchor
  anchors : List (Nat × Node)
  handles : List String
  deriving Repr, Inhabited

abbrev Read := StateT Reader Option

namespace Read

def peek : Read Token := do
  match (← get).tokens with
  | t :: _ => return t
  | [] => failure

def skip : Read Unit := modify fun r => { r with tokens := r.tokens.drop 1 }

def isAt (t : Token) : Read Bool := return (← peek) == t

def isAtAny (ts : List Token) : Read Bool := return ts.contains (← peek)

def expect (t : Token) : Read Unit := do
  guard (← isAt t)
  skip

def remaining : Read Nat := return (← get).tokens.length

/-- The node where one is left out. -/
def absent : Node := .scalar "" true

def nodeUnless (followers : List Token) (node : Read Node) : Read Node := do
  if ← isAtAny followers then return absent else node

def newAnchor (name : String) : Read Anchor := do
  let r ← get
  let a : Anchor := ⟨r.names.length, r.starts.length⟩
  set { r with names := (name, a.number) :: r.names.filter (·.1 != name), starts := a :: r.starts }
  return a

/-- Notes the node of an anchor, unless another node of its number has started since. -/
def setAnchor (a : Anchor) (node : Node) : Read Unit :=
  modify fun r =>
    if r.starts.find? (·.number == a.number) = some a then { r with anchors := (a.number, node) :: r.anchors } else r

def anchor? : Read (Option Anchor) := do
  match ← peek with
  | .anchor name => skip; return some (← newAnchor name)
  | _ => return none

def tag? : Read Bool := do
  match ← peek with
  | .tag handle =>
    guard ((← get).handles.contains handle)
    skip
    return true
  | _ => return false

/-- The anchor and the tag of a node, in either order: the anchor, and whether there was any of the two. -/
def properties : Read (Option Anchor × Bool) := do
  match ← anchor? with
  | some a => let _ ← tag?; return (some a, true)
  | none =>
    if ← tag? then return (← anchor?, true) else return (none, false)

def blockItems (node : Read Node) : Nat → Read (List Node)
  | 0 => failure
  | n + 1 => do
    if ← isAt .blockEnd then skip; return []
    expect .blockEntry
    let item ← nodeUnless [.blockEntry, .blockEnd] node
    return item :: (← blockItems node n)

/-- The entries of a sequence that is not indented more than the key it belongs to. -/
def indentlessItems (node : Read Node) : Nat → Read (List Node)
  | 0 => failure
  | n + 1 => do
    if ← isAt .blockEntry then
      skip
      let item ← nodeUnless [.blockEntry, .key, .value, .blockEnd] node
      return item :: (← indentlessItems node n)
    else return []

def valueOf (followers : List Token) (node : Read Node) : Read Node := do
  if ← isAt .value then skip; nodeUnless followers node else return absent

def blockEntries (node : Read Node) : Nat → Read (List (Node × Node))
  | 0 => failure
  | n + 1 => do
    if ← isAt .blockEnd then skip; return []
    expect .key
    let followers := [.key, .value, .blockEnd]
    let key ← nodeUnless followers node
    let value ← valueOf followers node
    return (key, value) :: (← blockEntries node n)

def separator (isFirst : Bool) : Read Unit := do
  unless isFirst do expect .flowEntry

/-- A single entry that stands for a mapping in a flow sequence. -/
def soleEntry (node : Read Node) : Read Node := do
  let key ← if ← isAtAny [.value, .flowEntry, .flowSequenceEnd] then skip; pure absent else node
  let value ← valueOf [.flowEntry, .flowSequenceEnd] node
  return .mapping [(key, value)]

def flowItems (node : Read Node) : Nat → Bool → Read (List Node)
  | 0, _ => failure
  | n + 1, isFirst => do
    if ← isAt .flowSequenceEnd then skip; return []
    separator isFirst
    if ← isAt .flowSequenceEnd then skip; return []
    let item ← if ← isAt .key then skip; soleEntry node else node
    return item :: (← flowItems node n false)

/-- An entry of a flow mapping. A member without the mark of a key has no value. -/
def flowEntryOf (node : Read Node) : Read (Node × Node) := do
  if ← isAt .key then
    skip
    let key ← nodeUnless [.value, .flowEntry, .flowMappingEnd] node
    return (key, ← valueOf [.flowEntry, .flowMappingEnd] node)
  else return (← node, absent)

def flowEntries (node : Read Node) : Nat → Bool → Read (List (Node × Node))
  | 0, _ => failure
  | n + 1, isFirst => do
    if ← isAt .flowMappingEnd then skip; return []
    separator isFirst
    if ← isAt .flowMappingEnd then skip; return []
    let entry ← flowEntryOf node
    return entry :: (← flowEntries node n false)

/-- The contents of a node after its anchor and tag, given the readers for the nodes inside it: in blocks, as keys and
values of blocks, and in flow collections. There are fewer than `n` members. -/
def content (n : Nat) (inner : Bool → Bool → Read Node) (block indentless hasProperties : Bool) : Read Node := do
  match ← peek with
  | .scalar text plain => skip; return .scalar text plain
  | .flowSequence => skip; return .sequence (← flowItems (inner false false) n true)
  | .flowMapping => skip; return .mapping (← flowEntries (inner false false) n true)
  | .blockEntry =>
    if indentless then return .sequence (← indentlessItems (inner true false) n)
    else if hasProperties then return absent else failure
  | .blockSequence =>
    if block then skip; return .sequence (← blockItems (inner true false) n)
    else if hasProperties then return absent else failure
  | .blockMapping =>
    if block then skip; return .mapping (← blockEntries (inner true true) n)
    else if hasProperties then return absent else failure
  | _ => if hasProperties then return absent else failure

/-- A node with fewer than `n` tokens after its first. In a block it may be a block; as the key or value of a block
mapping it may be a sequence that is not indented. -/
def nodeTo : Nat → Bool → Bool → Read Node
  | 0, _, _ => failure
  | n + 1, block, indentless => do
    match ← peek with
    | .alias name =>
      skip
      match (← get).names.lookup name with
      | some i => return .alias i
      | none => failure
    | _ =>
      let (anchor, any) ← properties
      let node ← content (n + 1) (nodeTo n) block indentless any
      if let some a := anchor then setAnchor a node
      return node

def isDirective : Token → Bool
  | .version .. => true
  | .tagDirective _ => true
  | _ => false

/-- The directives of a document: a version is given once and is known, a handle is given once. -/
def directives : Nat → Bool → List String → Read (List String)
  | 0, _, _ => failure
  | n + 1, versioned, handles => do
    match ← peek with
    | .version major minor =>
      guard (!versioned && major = 1 && (minor = 1 || minor = 2))
      skip
      directives n true handles
    | .tagDirective handle =>
      guard (!handles.contains handle)
      skip
      directives n versioned (handle :: handles)
    | _ => return handles

/-- The node of a document, which begins by a mark if directives come first. -/
def documentRoot : Read Node := do
  let n := (← remaining) + 1
  let t ← peek
  if isDirective t || t == .documentStart then
    let handles ← directives n false []
    modify fun r => { r with handles := handles ++ r.handles }
    expect .documentStart
    let t ← peek
    if isDirective t || [Token.documentStart, .documentEnd, .streamEnd].contains t then return absent
    else nodeTo n true false
  else nodeTo n true false

def documentEnds : Nat → Read Unit
  | 0 => failure
  | n + 1 => do
    if ← isAt .documentEnd then skip; documentEnds n

def stream : Read Node := do
  if ← isAt .streamEnd then failure
  let root ← documentRoot
  documentEnds ((← remaining) + 1)
  guard (← isAt .streamEnd)
  return root

end Read

def Document.ofText? (text : String) : Option Document := do
  let tokens ← tokens? text
  let (root, r) ← Read.stream ⟨tokens, [], [], [], ["", "!", "!!"]⟩
  return ⟨root, r.anchors⟩

end ChainCompiler.Yaml
