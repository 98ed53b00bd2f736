import ChainCompiler.Token.Basic

/-! Why a token sequence is no program: the first token that does not fit, or a name that is given twice. -/

namespace ChainCompiler

/-- What the parser would accept at a place. -/
inductive Want where
  | statement
  | definitionName | chainName | schemaName | fieldName | fieldType | modifierName | argumentName
  | objectKey
  | expression
  | number
  | keyword (k : Keyword)
  | mark (m : Mark)
  | bodyOpen | bodyClose
  | schemaOpen | schemaClose | fieldEnd
  | argumentAssign | argumentEnd | argumentsClose
  | itemEnd | listClose
  | keyColon | entryEnd | objectClose
  | routerOpen | routerClose | arm | caseArrow | defaultArrow
  deriving DecidableEq, Repr, Inhabited

def Want.text : Want → String
  | .statement => "top-level statement (def, chain, schema)"
  | .definitionName => "definition name"
  | .chainName => "chain name"
  | .schemaName => "schema name"
  | .fieldName => "field name"
  | .fieldType => "field type"
  | .modifierName => "modifier name"
  | .argumentName => "argument name"
  | .objectKey => "object key"
  | .expression => "expression"
  | .number => "number"
  | .keyword k => "keyword '" ++ k.spelling ++ "'"
  | .mark m => "'" ++ m.spelling ++ "'"
  | .bodyOpen => "'\x7b' to open the chain body"
  | .bodyClose => "'\x7d' to close the chain body"
  | .schemaOpen => "'\x7b' to open the schema body"
  | .schemaClose => "'\x7d' to close the schema body"
  | .fieldEnd => "',' or '\x7d' in schema definition"
  | .argumentAssign => "'=' after argument name"
  | .argumentEnd => "',' or ')' in argument list"
  | .argumentsClose => "')' to close the argument list"
  | .itemEnd => "',' or ']' in list literal"
  | .listClose => "']' to close the list"
  | .keyColon => "':' after object key"
  | .entryEnd => "',' or '\x7d' in object literal"
  | .objectClose => "'\x7d' to close the object"
  | .routerOpen => "'\x7b' to open the router block"
  | .routerClose => "'\x7d' to close the router block"
  | .arm => "'case', 'default' or '\x7d' in router block"
  | .caseArrow => "'=>' after case condition"
  | .defaultArrow => "'=>' after default"

/-- What may be given once only. -/
inductive Once where
  | argument
  | key
  | routerArm
  deriving DecidableEq, Repr, Inhabited

def Once.text : Once → String
  | .argument => "argument"
  | .key => "key"
  | .routerArm => "router arm"

inductive ParseError where
  | unexpected (want : Want) (found : Token)
  | duplicate (what : Once) (name : String) (place : Token)
  deriving DecidableEq, Repr, Inhabited

namespace ParseError

def expected : ParseError → String
  | .unexpected want _ => want.text
  | .duplicate what _ _ => "unique " ++ what.text

def found : ParseError → String
  | .unexpected _ token => token.describe
  | .duplicate what name _ => "duplicate " ++ what.text ++ " '" ++ name ++ "'"

def pos : ParseError → Position
  | .unexpected _ token => token.pos
  | .duplicate _ _ token => token.pos

end ParseError

end ChainCompiler
