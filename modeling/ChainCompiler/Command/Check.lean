import ChainCompiler.Command.Session

/-! Checking that sources are programs, without compiling them. -/

namespace ChainCompiler.Command.Run

def reportFine (path : Path) (statements : Nat) (format : Format) : Run Unit :=
  match format with
  | .text => print (path.text ++ ": ok (" ++ statements.repr ++ " statements)")
  | .json =>
    print (jsonLine [("file", .text path.text), ("ok", .bool true), ("statements", .number statements)])

def checkSource (path : Path) (format : Format) : Run Bool := do
  match Program.ofSource (← source path) with
  | .ok p =>
    reportFine path p.length format
    return true
  | .error e =>
    report path e.diagnostic format
    return false

/-- Checks sources one after the other: the number of those that are no programs. -/
def checkAll (format : Format) : List Path → Run Nat
  | [] => return 0
  | path :: paths => do
    let fine ← checkSource path format
    let failed ← checkAll format paths
    return if fine then failed else failed + 1

def sourcesToCheck (config : Path) (source : Option Path) : Run (List Path) := do
  match source with
  | some path => return [path]
  | none =>
    let loaded ← loadProject config
    return (← findSources loaded.sources).map loaded.sources.below

def checkSources (config : Path) (source : Option Path) (format : Format) : Run Unit := do
  let paths ← sourcesToCheck config source
  let failed ← checkAll format paths
  if 0 < failed then throw (.someWithErrors failed paths.length)

end ChainCompiler.Command.Run
