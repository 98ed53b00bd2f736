import ChainCompiler.Main
import ChainCompiler.Proofs.Cursor
import ChainCompiler.Proofs.Soundness.Expr
import ChainCompiler.Proofs.Soundness.Pipeline
import ChainCompiler.Proofs.Soundness.Statement
import ChainCompiler.Proofs.Completeness.Expr
import ChainCompiler.Proofs.Completeness.Pipeline
import ChainCompiler.Proofs.Completeness.Statement
import ChainCompiler.Proofs.Numeral
import ChainCompiler.Proofs.Recognition
import ChainCompiler.Proofs.Lexeme
import ChainCompiler.Proofs.Scanning
import ChainCompiler.Proofs.Tiling
import ChainCompiler.Proofs.Shift.Basic
import ChainCompiler.Proofs.Shift.Expr
import ChainCompiler.Proofs.Shift.Pipeline
import ChainCompiler.Proofs.Shift.Statement
import ChainCompiler.Proofs.Adjacency
import ChainCompiler.Proofs.Juxtaposition
import ChainCompiler.Proofs.Lexical
import ChainCompiler.Proofs.WellFormed
import ChainCompiler.Proofs.Deciding
import ChainCompiler.Proofs.Spelling
import ChainCompiler.Proofs.Data
import ChainCompiler.Proofs.Lowering.Parallel
import ChainCompiler.Proofs.Lowering.Locality
import ChainCompiler.Proofs.Leaves
import ChainCompiler.Proofs.Script.Nodes
import ChainCompiler.Proofs.Lowering.Emission
import ChainCompiler.Proofs.Lowering.Imports
import ChainCompiler.Proofs.Script.Literals
import ChainCompiler.Proofs.Script.Rendering
import ChainCompiler.Proofs.Unsigned
import ChainCompiler.Proofs.Containment
import ChainCompiler.Proofs.Script.Binding
import ChainCompiler.Proofs.Lowering.Registration
import ChainCompiler.Proofs.Lowering.Contribution
import ChainCompiler.Proofs.Lowering.Registry
import ChainCompiler.Proofs.Lowering.Chains
import ChainCompiler.Proofs.Lowering.Names
import ChainCompiler.Proofs.Viability.Nesting
import ChainCompiler.Proofs.Viability.Completion
import ChainCompiler.Proofs.Viability.Stalling
import ChainCompiler.Proofs.Viability.Expr
import ChainCompiler.Proofs.Viability.Pipeline
import ChainCompiler.Proofs.Viability.Distinctness
import ChainCompiler.Proofs.Viability.Statement
import ChainCompiler.Proofs.Viability.Report
import ChainCompiler.Proofs.Indexed.Following
import ChainCompiler.Proofs.Indexed.Expr
import ChainCompiler.Proofs.Indexed.Pipeline
import ChainCompiler.Proofs.Indexed.Statement
import ChainCompiler.Proofs.Indexed.Safety
import ChainCompiler.Proofs.Reporting.Diagnostics
import ChainCompiler.Proofs.Command.Atomicity
import ChainCompiler.Proofs.Files.Walk
import ChainCompiler.Proofs.Files.Writing
import ChainCompiler.Proofs.Command.Emission
import ChainCompiler.Proofs.Command.Agreement
import ChainCompiler.Proofs.Rejoining
import ChainCompiler.Proofs.Command.Initialization
import ChainCompiler.Proofs.Yaml.Marks
import ChainCompiler.Proofs.Yaml.Order
import ChainCompiler.Proofs.Yaml.Value
import ChainCompiler.Proofs.Yaml.Entry
import ChainCompiler.Proofs.Command.Naming
import ChainCompiler.Proofs.Respacing
import ChainCompiler.Proofs.Script.Instances
import ChainCompiler.Proofs.Lowering.Labelling
import ChainCompiler.Proofs.Lowering.Labels
import ChainCompiler.Proofs.Lowering.Binds
import ChainCompiler.Proofs.Lowering.Variables
import ChainCompiler.Proofs.Unquoting
import ChainCompiler.Proofs.Lowering.Arrangement
import ChainCompiler.Proofs.Lowering.Warnings
import ChainCompiler.Proofs.Lowering.Arguments
import ChainCompiler.Proofs.Lowering.Sites
import ChainCompiler.Proofs.Lowering.Mentions
import ChainCompiler.Proofs.Lowering.Order
import ChainCompiler.Proofs.Longest
import ChainCompiler.Proofs.Words
import ChainCompiler.Proofs.Command.Discovery
import ChainCompiler.Proofs.Commas.Breaking
import ChainCompiler.Proofs.Script.Folding
import ChainCompiler.Proofs.Lowering.Announcing
import ChainCompiler.Proofs.Lowering.Bound
import ChainCompiler.Proofs.Lowering.Walk
import ChainCompiler.Proofs.Files.Sources
