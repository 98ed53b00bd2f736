import ChainCompiler.Diagnostic
import ChainCompiler.Module
import ChainCompiler.Text.Blank
import ChainCompiler.Yaml.Node

/-! The configuration of a project, read from a YAML text. -/

namespace ChainCompiler

structure Target where
  runtimeModule : String
  invokeMethod : String
  deriving DecidableEq, Repr

def Target.standard : Target := ⟨Options.standard.runtimeModule, Options.standard.invokeMethod⟩

structure Project where
  name : String
  version : String
  /-- The directory of the sources. -/
  sources : String
  /-- The directory of the modules. -/
  output : String
  target : Target
  deriving DecidableEq, Repr

/-- Why a text is no configuration. -/
inductive ConfigError where
  /-- It is no YAML text of the right shape. -/
  | malformed
  /-- A setting that has to say something is blank. -/
  | blank (setting : String)
  deriving DecidableEq, Repr

namespace ConfigError

def shape : String := "the text is not one YAML mapping of the known settings"

def message : ConfigError → String
  | .malformed => "failed to parse configuration: " ++ shape
  | .blank setting => "invalid configuration: " ++ setting ++ " must not be empty"

def causes (e : ConfigError) : List String :=
  match e with
  | .malformed => [e.message, shape]
  | .blank _ => [e.message]

def diagnostic (e : ConfigError) : Diagnostic := ⟨.config, e.message, none, none⟩

end ConfigError

namespace Yaml

/-- The entries of a mapping with their keys as texts; nothing at all counts as an empty mapping. -/
def Document.entries? (d : Document) (node : Node) : Option (List (String × Node)) :=
  match d.resolve node with
  | .mapping entries => entries.mapM fun (k, v) => do
    match d.resolve k with
    | .scalar key _ => return (key, v)
    | _ => none
  | .scalar "" true => some []
  | _ => none

def Document.text? (d : Document) (node : Node) : Option String :=
  match d.resolve node with
  | .scalar text _ => some text
  | _ => none

def unique? (entries : List (String × Node)) (key : String) : Option (Option Node) :=
  match entries.filter (·.1 == key) with
  | [] => some none
  | [e] => some (some e.2)
  | _ => none

def Document.setting? (d : Document) (entries : List (String × Node)) (key : String) (standard : String) :
    Option String := do
  match ← unique? entries key with
  | some node => d.text? node
  | none => return standard

end Yaml

namespace Target

open Yaml in
def ofNode? (d : Document) (node : Node) : Option Target := do
  let entries ← d.entries? node
  return ⟨← d.setting? entries "runtime_module" standard.runtimeModule,
    ← d.setting? entries "invoke_method" standard.invokeMethod⟩

def options (t : Target) (debug : Bool) : Options := ⟨t.runtimeModule, t.invokeMethod, debug⟩

end Target

namespace Project

def fileName : String := "linklang.yaml"

/-- The project that a document describes. Only its name has to be given; keys that mean nothing are passed over. -/
def ofDocument? (d : Yaml.Document) : Option Project := do
  let entries ← d.entries? d.root
  let name ← (← Yaml.unique? entries "name").bind d.text?
  let version ← d.setting? entries "version" "0.1.0"
  let sources ← d.setting? entries "sources" "chains"
  let output ← d.setting? entries "output" "dist"
  let target ←
    match ← Yaml.unique? entries "target" with
    | some node => Target.ofNode? d node
    | none => pure .standard
  return ⟨name, version, sources, output, target⟩

def blankSetting? (p : Project) : Option String :=
  if Text.isAllBlank p.target.runtimeModule then some "target.runtime_module"
  else if Text.isAllBlank p.target.invokeMethod then some "target.invoke_method"
  else none

def ofText (text : String) : Except ConfigError Project :=
  match (Yaml.Document.ofText? text).bind ofDocument? with
  | none => .error .malformed
  | some p =>
    match blankSetting? p with
    | some setting => .error (.blank setting)
    | none => .ok p

end Project

end ChainCompiler
