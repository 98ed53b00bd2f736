import ChainCompiler.Lowering.Statement
import ChainCompiler.Script.Layout

/-! Modules: what a program is compiled to. A module has an import line, the definitions in source order, the set-up of
the contexts that chains run in, and a function for each chain that runs it. -/

namespace ChainCompiler

structure Options where
  /-- Where the classes are imported from. -/
  runtimeModule : String
  /-- The method that runs a chain. -/
  invokeMethod : String
  /-- Whether each statement is announced by a comment. -/
  debug : Bool
  deriving DecidableEq, Repr

def Options.standard : Options := ⟨"../dist/tinychain.esm.js", "async_invoke", false⟩

instance : Inhabited Options := ⟨.standard⟩

structure Module where
  classes : List String
  definitions : List Script.Stmt
  contexts : List Script.Stmt
  helpers : List Script.Stmt
  deriving Repr, Inhabited

namespace Module

open Script (Stmt)

def announcement (s : Statement) : Stmt :=
  .comment (s.keyword ++ " " ++ s.name ++ " (line " ++ s.line.repr ++ ")")

def separated : List (List Stmt) → List Stmt
  | [] => []
  | [b] => b
  | b :: bs => b ++ .blank :: separated bs

def definitionsOf (debug : Bool) (p : Program) (ls : List Lowered) : List Stmt :=
  separated ((p.zip ls).map fun (s, l) => (if debug then [announcement s] else []) ++ l.definitions)

def contextName (chain : String) : String := chain ++ "_ctx"

def setting (map key : String) (value : Script.Expr) : Stmt :=
  .expr ((Script.Expr.ident map).method "set" [.str key, value])

/-- The registry of the tools, in the context that chains without a memory run in. -/
def registry (tools : List String) : List Stmt :=
  if tools.isEmpty then []
  else
    [.const "ctx" (.new "ChainContext" []), .const "toolRegistry" (.new "Map" [])] ++
    tools.map (fun t => .expr ((Script.Expr.ident "toolRegistry").method "set" [.member (.ident t) "name", .ident t])) ++
    [setting "ctx" "tool_registry" (.ident "toolRegistry")]

def memoryContext (tools : List String) (chain : String) (memory : Script.Expr) : List Stmt :=
  [.const (contextName chain) (.new "ChainContext" []), setting (contextName chain) "memory" memory] ++
  if tools.isEmpty then [] else [setting (contextName chain) "tool_registry" (.ident "toolRegistry")]

def contextsOf (tools : List String) (chains : List ChainEntry) : List Stmt :=
  let memories := chains.filterMap fun c => c.memory.map (memoryContext tools c.name)
  separated ((if tools.isEmpty then [] else [registry tools]) ++ memories)

/-- The context that a chain runs in, if it has one. A chain shares its name's context. -/
def contextOf (tools : List String) (chains : List ChainEntry) (chain : String) : List Script.Expr :=
  if chains.any (fun c => c.name == chain && c.memory.isSome) then [.ident (contextName chain)]
  else if tools.isEmpty then []
  else [.ident "ctx"]

def helper (invokeMethod : String) (chain : String) (context : List Script.Expr) : Stmt :=
  .function ("run_" ++ chain) ["input"]
    [.const "res" (.await ((Script.Expr.ident chain).method invokeMethod (.ident "input" :: context))),
      .expr ((Script.Expr.ident "console").method "log" [.member (.ident "res") "content"]),
      .result (.ident "res")]

def helpersOf (invokeMethod : String) (tools : List String) (chains : List ChainEntry) : List Stmt :=
  if chains.isEmpty then []
  else .comment "Execution helpers" ::
    separated (chains.map fun c => [helper invokeMethod c.name (contextOf tools chains c.name)])

/-- The classes a module imports: those met in lowering, and the one that contexts are made of. -/
def classesOf (scope : Scope) : List String :=
  if scope.tools.isEmpty then scope.classes else insertSorted "ChainContext" scope.classes

/-- The module of a program that was lowered, with the scope in which that ended. -/
def assemble (options : Options) (p : Program) (ls : List Lowered) (scope : Scope) : Module :=
  let chains := ls.filterMap (·.chain)
  ⟨classesOf scope, definitionsOf options.debug p ls, contextsOf scope.tools chains,
    helpersOf options.invokeMethod scope.tools chains⟩

/-- The module of a program, and the warnings that making it gave, also when it fails. -/
def ofProgram (options : Options) (p : Program) : Except LoweringError Module × List Warning :=
  let (result, scope) := (Lower.program p).run (Scope.initial p)
  (result.map fun ls => assemble options p ls scope, scope.warnings)

def header (source : String) : String := "// Generated by linklang from " ++ source ++ ". Do not edit.\n"

def importLine (options : Options) (classes : List String) : String :=
  if classes.isEmpty then "" else Script.text [.imports classes options.runtimeModule] ++ "\n"

/-- A section after the blank line that sets it off; an empty one leaves no trace. -/
def sectionText (ss : List Stmt) : String :=
  if ss.isEmpty then "" else "\n" ++ Script.text ss ++ "\n"

def text (options : Options) (source : String) (m : Module) : String :=
  header source ++ importLine options m.classes ++
    sectionText m.definitions ++ sectionText m.contexts ++ sectionText m.helpers

end Module

end ChainCompiler
