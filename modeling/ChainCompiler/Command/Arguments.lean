import ChainCompiler.Project

/-! The arguments of the command line: options, each given once, and a command with options and an argument of its
own. -/

namespace ChainCompiler.Command

inductive Format where
  | text
  | json
  deriving DecidableEq, Repr, Inhabited

inductive Action where
  | init (path : String) (name : Option String)
  | compile (source output : Option String) (debug : Bool) (format : Format)
  | check (source : Option String) (format : Format)
  deriving DecidableEq, Repr

structure Invocation where
  config : String
  action : Action
  deriving DecidableEq, Repr

/-- Why there is nothing to run. -/
inductive Halt where
  | refused
  | version
  | help
  deriving DecidableEq, Repr

/-- The value that belongs to an option: none, any text, or one of a few names. -/
inductive Domain where
  | nothing
  | anyText
  | oneOf (names : List String)
  deriving DecidableEq, Repr

/-- An option: its long name, its letter if it has one, and what value belongs to it. -/
structure Switch where
  name : String
  letter : Option Char
  domain : Domain
  deriving DecidableEq, Repr

namespace Switch

def takesValue (s : Switch) : Bool := s.domain != .nothing

def accepts (s : Switch) (value : String) : Bool :=
  match s.domain with
  | .oneOf names => names.contains value
  | _ => true

end Switch

/-- What may be given: options, commands, and so many other arguments. -/
structure Usage where
  switches : List Switch
  commands : List String
  places : Nat
  deriving Repr

/-- What was given: options with their values, and other arguments. -/
structure Given where
  values : List (String × String)
  others : List String
  deriving Repr

namespace Given

def empty : Given := ⟨[], []⟩

def has (g : Given) (name : String) : Bool := (g.values.lookup name).isSome

/-- Adds an option, which may be given once only, with a value of its own. Some options end it all. -/
def add (g : Given) (s : Switch) (value : String) : Except Halt Given :=
  if s.name = "version" then .error .version
  else if s.name = "help" then .error .help
  else if g.has s.name || !s.accepts value then .error .refused
  else .ok { g with values := g.values ++ [(s.name, value)] }

def addOthers (g : Given) (others : List String) (places : Nat) : Except Halt Given :=
  if g.others.length + others.length ≤ places then .ok { g with others := g.others ++ others } else .error .refused

end Given

def looksLikeOption (arg : String) : Bool := arg.toList.head? == some '-' && arg != "-"

def splitLong (cs : List Char) : String × Option String :=
  let name := cs.takeWhile (· != '=')
  (String.ofList name,
    match cs.drop name.length with
    | _ :: value => some (String.ofList value)
    | [] => none)

namespace Usage

/-- The letters after a single dash. The last may be an option whose value is the next argument. -/
def letters (u : Usage) (g : Given) : List Char → Except Halt (Given × Option Switch)
  | [] => .ok (g, none)
  | c :: cs =>
    match u.switches.find? (·.letter == some c) with
    | none => .error .refused
    | some s =>
      if s.takesValue then
        match cs with
        | [] => .ok (g, some s)
        | '=' :: value => (g.add s (String.ofList value)).map (·, none)
        | value => (g.add s (String.ofList value)).map (·, none)
      else do
        let g ← g.add s ""
        u.letters g cs

def long (u : Usage) (g : Given) (cs : List Char) : Except Halt (Given × Option Switch) :=
  let (name, value) := splitLong cs
  match u.switches.find? (·.name == name) with
  | none => .error .refused
  | some s =>
    match s.takesValue, value with
    | true, some v => (g.add s v).map (·, none)
    | true, none => .ok (g, some s)
    | false, none => (g.add s "").map (·, none)
    | false, some _ => .error .refused

def option (u : Usage) (g : Given) (arg : String) : Except Halt (Given × Option Switch) :=
  match arg.toList with
  | '-' :: '-' :: cs => u.long g cs
  | _ :: cs => u.letters g cs
  | [] => .error .refused

/-- Reads arguments up to a command, if one is known, which it gives with the arguments after it. After two dashes
nothing is an option. -/
def read (u : Usage) (g : Given) : List String → Except Halt (Given × Option (String × List String))
  | [] => .ok (g, none)
  | arg :: args =>
    if arg = "--" then (g.addOthers args u.places).map (·, none)
    else if looksLikeOption arg then do
      match ← u.option g arg with
      | (g, none) => u.read g args
      | (g, some s) =>
        match args with
        | value :: args =>
          if looksLikeOption value then throw .refused
          u.read (← g.add s value) args
        | [] => throw .refused
    else if u.commands.contains arg then .ok (g, some (arg, args))
    else do u.read (← g.addOthers [arg] u.places) args

end Usage

def helpSwitch : Switch := ⟨"help", some 'h', .nothing⟩

def formatSwitch : Switch := ⟨"format", none, .oneOf ["text", "json"]⟩

def mainUsage : Usage :=
  ⟨[⟨"config", some 'c', .anyText⟩, ⟨"verbose", some 'v', .nothing⟩, ⟨"version", some 'V', .nothing⟩, helpSwitch],
    ["init", "compile", "check", "help"], 0⟩

def initUsage : Usage := ⟨[⟨"name", some 'n', .anyText⟩, helpSwitch], [], 1⟩

def compileUsage : Usage :=
  ⟨[⟨"output", some 'o', .anyText⟩, ⟨"debug", none, .nothing⟩, formatSwitch, helpSwitch], [], 1⟩

def checkUsage : Usage := ⟨[formatSwitch, helpSwitch], [], 1⟩

def formatOf (g : Given) : Format := if g.values.lookup "format" = some "json" then .json else .text

def readAction (name : String) (args : List String) : Except Halt Action := do
  if name = "init" then
    let (g, _) ← initUsage.read .empty args
    return .init (g.others.headD ".") (g.values.lookup "name")
  else if name = "compile" then
    let (g, _) ← compileUsage.read .empty args
    let output := g.values.lookup "output"
    if output.isSome && g.others.isEmpty then throw .refused
    return .compile g.others.head? output (g.has "debug") (formatOf g)
  else if name = "check" then
    let (g, _) ← checkUsage.read .empty args
    return .check g.others.head? (formatOf g)
  else if args.all mainUsage.commands.contains && args.length ≤ 1 then throw .help
  else throw .refused

def readArguments (args : List String) : Except Halt Invocation := do
  match ← mainUsage.read .empty args with
  | (g, some (name, args)) =>
    return ⟨(g.values.lookup "config").getD Project.fileName, ← readAction name args⟩
  | (_, none) => throw .refused

end ChainCompiler.Command
