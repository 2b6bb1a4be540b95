import JmesPath.Token.Basic
import JmesPath.Token.Error

/-! # Faults in the structure of a query

* `Expected` — what a production asks for
* `ParseError` — what can be wrong with a token list, and where
* `CompileError` — a fault in a word or in the structure
-/

namespace JmesPath

/-- What a production asks for. -/
inductive Expected
  | star
  | colon
  | closeBracket
  | closeParen
  | identifier
  | commaOrBracket
  | commaOrBrace
  deriving DecidableEq

namespace Expected

def name : Expected → String
  | .star => "Star"
  | .colon => "Colon"
  | .closeBracket => "Rbracket"
  | .closeParen => "Rparen"
  | .identifier => "identifier"
  | .commaOrBracket => "Comma or Rbracket"
  | .commaOrBrace => "Comma or Rbrace"

def accepts : Expected → Token → Bool
  | .star, .star => true
  | .colon, .colon => true
  | .closeBracket, .closeBracket => true
  | .closeParen, .closeParen => true
  | .identifier, .identifier _ => true
  | .identifier, .quotedIdentifier _ => true
  | .commaOrBracket, .comma => true
  | .commaOrBracket, .closeBracket => true
  | .commaOrBrace, .comma => true
  | .commaOrBrace, .closeBrace => true
  | _, _ => false

end Expected

/-- What can be wrong with a token list.  `found` is the token at the position, or
    nothing at the end of the query. -/
inductive ParseError
  | unexpected (found : Option Token) (position : Nat)
  | expected (wanted : Expected) (found : Option Token) (position : Nat)
  | quotedFunctionName (position : Nat)
  | invalidFunctionTarget (position : Nat)
  | trailingComma (position : Nat)
  | nestingTooDeep (limit position : Nat)

/-- The name of the token found; the end of the query has one, too. -/
def foundName : Option Token → String
  | some t => t.name
  | none => "EOF"

def foundSource : Option Token → String
  | some t => String.ofList t.source
  | none => ""

namespace ParseError

def position : ParseError → Nat
  | .unexpected _ p => p
  | .expected _ _ p => p
  | .quotedFunctionName p => p
  | .invalidFunctionTarget p => p
  | .trailingComma p => p
  | .nestingTooDeep _ p => p

def message : ParseError → String
  | .unexpected found p =>
    s!"unexpected token {foundName found} `{foundSource found}` at position {p}"
  | .expected wanted found p =>
    s!"expected {wanted.name}, found {foundName found} at position {p}"
  | .quotedFunctionName p =>
    s!"quoted identifier at position {p} cannot be used as a function name"
  | .invalidFunctionTarget p =>
    s!"only an unquoted identifier can be called as a function (position {p})"
  | .trailingComma p => s!"trailing comma at position {p}"
  | .nestingTooDeep limit p =>
    s!"expression nests deeper than {limit} levels at position {p}"

end ParseError

/-- What can be wrong with a query. -/
inductive CompileError
  | lex (e : LexError)
  | parse (e : ParseError)

namespace CompileError

def position : CompileError → Nat
  | .lex e => e.position
  | .parse e => e.position

def message : CompileError → String
  | .lex e => e.message
  | .parse e => e.message

end CompileError

end JmesPath
