import ChainCompiler.Diagnostic
import ChainCompiler.Digest
import ChainCompiler.Module
import ChainCompiler.Parser.Statement

/-! Compilation of a source text to a module's text, and the messages of what can go wrong. -/

namespace ChainCompiler

def LexError.summary (e : LexError) : String := "unexpected character '" ++ e.char.toString ++ "'"

def ParseError.summary (e : ParseError) : String := "expected " ++ e.expected ++ ", found " ++ e.found

def Position.suffix (p : Position) : String := " at line " ++ p.line.repr ++ ", column " ++ p.column.repr

namespace SourceError

def summary : SourceError → String
  | .lex e => e.summary
  | .parse e => e.summary

def pos : SourceError → Position
  | .lex e => e.pos
  | .parse e => e.pos

def stage : SourceError → Stage
  | .lex _ => .lex
  | .parse _ => .parse

def message (e : SourceError) : String := e.summary ++ e.pos.suffix

def diagnostic (e : SourceError) : Diagnostic :=
  ⟨e.stage, e.summary, some e.pos.line, some e.pos.column⟩

end SourceError

namespace LoweringError

def message (e : LoweringError) : String :=
  "cannot lower " ++ e.statement.title ++ " (line " ++ e.statement.line.repr ++ "): " ++ e.cause.message

def diagnostic (e : LoweringError) : Diagnostic :=
  ⟨.codegen, "cannot lower " ++ e.statement.title ++ ": " ++ e.cause.message, some e.statement.line, none⟩

end LoweringError

inductive CompileError where
  | source (e : SourceError)
  | lowering (e : LoweringError)
  deriving Repr

namespace CompileError

def message : CompileError → String
  | .source e => e.message
  | .lowering e => e.message

def diagnostic : CompileError → Diagnostic
  | .source e => e.diagnostic
  | .lowering e => e.diagnostic

end CompileError

/-- A compiled source: the name it was given and the text of its module. -/
structure Compiled where
  name : String
  code : String
  deriving DecidableEq, Repr

namespace Compiled

def size (c : Compiled) : Nat := c.code.utf8ByteSize

def hexByte (b : UInt8) : List Char := [Text.hexDigit (b.toNat / 16), Text.hexDigit (b.toNat % 16)]

def hash (c : Compiled) : String :=
  String.ofList ((Digest.sha256 c.code.toUTF8.toList).flatMap hexByte)

end Compiled

def generate (options : Options) (name : String) (p : Program) : Except LoweringError String × List Warning :=
  let (result, warnings) := Module.ofProgram options p
  (result.map (Module.text options name), warnings)

/-- Compiles a source text. A text that is no program gives no warnings. -/
def compile (options : Options) (name source : String) : Except CompileError Compiled × List Warning :=
  match Program.ofSource source with
  | .error e => (.error (.source e), [])
  | .ok p =>
    let (result, warnings) := generate options name p
    ((result.map (Compiled.mk name)).mapError .lowering, warnings)

end ChainCompiler
