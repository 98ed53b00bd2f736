/-! What the text of a literal token stands for. -/

namespace ChainCompiler.Literal

/-- What stands between `edge` at the front and `edge` at the end, if the text is long enough to have both. -/
def between? (edge : List Char) (cs : List Char) : Option (List Char) :=
  if edge.isPrefixOf cs && edge.isSuffixOf (cs.drop edge.length) then
    some ((cs.drop edge.length).take (cs.length - 2 * edge.length))
  else none

def escaped? : Char → Option Char
  | 'n' => some '\n'
  | 't' => some '\t'
  | 'r' => some '\r'
  | '"' => some '"'
  | '\\' => some '\\'
  | _ => none

/-- A text with its escapes resolved. A backslash before any other character stands for itself. -/
def unescape : List Char → List Char
  | [] => []
  | '\\' :: c :: cs =>
    match escaped? c with
    | some d => d :: unescape cs
    | none => '\\' :: c :: unescape cs
  | c :: cs => c :: unescape cs

/-- The contents of a string token. Between three quotes they are taken as they stand, between single ones
escapes are resolved. -/
def unquote (text : String) : String :=
  let cs := text.toList
  String.ofList <|
    match between? ['"', '"', '"'] cs with
    | some inner => inner
    | none => unescape ((between? ['"'] cs).getD cs)

/-- The name in a template variable token: its text without the braces around it. -/
def variableName (text : String) : String :=
  let cs := text.toList.dropWhile (· == '\x7b')
  String.ofList (cs.reverse.dropWhile (· == '\x7d')).reverse

end ChainCompiler.Literal
