import ChainCompiler.Command.Session

/-! The paths whose entries decide what a command does. A tree that holds what is there at these paths, and below
them, is all that a run needs of the file system. -/

namespace ChainCompiler.Command

/-- The paths of a configuration: the path itself, or the file in a directory of that path. -/
def configPlaces (config : String) : List Path := [⟨config⟩, Path.join ⟨config⟩ ⟨Project.fileName⟩]

/-- The paths that an invocation names, or finds at once from those. -/
def Invocation.named (i : Invocation) : List Path :=
  match i.action with
  | .init path _ =>
    [Project.fileName, "chains/example.chain", ".gitignore"].map fun name => Path.join ⟨path⟩ ⟨name⟩
  | .compile source output _ _ =>
    configPlaces i.config ++ source.toList.flatMap (fun s => [⟨s⟩, Path.withExtension ⟨s⟩ "js"]) ++
      output.toList.map Path.mk
  | .check source _ => configPlaces i.config ++ source.toList.map Path.mk

def Invocation.directories (i : Invocation) (files : Files) : List Path :=
  match load files ⟨i.config⟩ with
  | .ok l => [l.sources, l.output]
  | .error _ => []

end ChainCompiler.Command
