import JmesPath.Text.Quoted
import JmesPath.Value.Text

/-! # Tokens

* `Token` — the words of a query
* `Located` — a token and where it starts
* `Token.name`, `Token.source` — how tokens are shown
* `Token.power` — how tightly a token binds to what stands in front of it
-/

namespace JmesPath

/-- The words of a query. -/
inductive Token
  | identifier (name : String)
  | quotedIdentifier (name : String)
  | literal (v : Value)
  | number (i : Int)
  | dot
  | star
  | comma
  | colon
  | openBrace
  | closeBrace
  | openBracket
  | closeBracket
  | openParen
  | closeParen
  | current
  | ampersand
  | filter
  | flatten
  | pipe
  | or
  | and
  | not
  | compare (op : Comparison)

/-- A token and the number of characters in front of it. -/
structure Located where
  token : Token
  start : Nat

namespace Token

def name : Token → String
  | .identifier _ => "UnquotedIdentifier"
  | .quotedIdentifier _ => "QuotedIdentifier"
  | .literal _ => "Literal"
  | .number _ => "Number"
  | .dot => "Dot"
  | .star => "Star"
  | .comma => "Comma"
  | .colon => "Colon"
  | .openBrace => "Lbrace"
  | .closeBrace => "Rbrace"
  | .openBracket => "Lbracket"
  | .closeBracket => "Rbracket"
  | .openParen => "Lparen"
  | .closeParen => "Rparen"
  | .current => "Current"
  | .ampersand => "Expref"
  | .filter => "Filter"
  | .flatten => "Flatten"
  | .pipe => "Pipe"
  | .or => "Or"
  | .and => "And"
  | .not => "Not"
  | .compare .equal => "EQ"
  | .compare .notEqual => "NE"
  | .compare .less => "LT"
  | .compare .lessEqual => "LTE"
  | .compare .greater => "GT"
  | .compare .greaterEqual => "GTE"

/-- A token in the form in which a query could hold it. -/
def source : Token → List Char
  | .identifier s => s.toList
  | .quotedIdentifier s => quoted s
  | .literal v => '\x60' :: v.tree.compact ++ ['\x60']
  | .number i => integerNumeral i
  | .dot => ['.']
  | .star => ['*']
  | .comma => [',']
  | .colon => [':']
  | .openBrace => ['\x7b']
  | .closeBrace => ['\x7d']
  | .openBracket => ['[']
  | .closeBracket => [']']
  | .openParen => ['(']
  | .closeParen => [')']
  | .current => ['@']
  | .ampersand => ['&']
  | .filter => ['[', '?']
  | .flatten => ['[', ']']
  | .pipe => ['|']
  | .or => ['|', '|']
  | .and => ['&', '&']
  | .not => ['!']
  | .compare op => op.symbol.toList

/-- How tightly a token binds to the expression in front of it; zero if it cannot
    continue one. -/
def power : Token → Nat
  | .pipe => 1
  | .or => 2
  | .and => 3
  | .compare _ => 5
  | .flatten => 9
  | .star => 20
  | .filter => 21
  | .dot => 40
  | .not => 45
  | .openBrace => 50
  | .openBracket => 55
  | .openParen => 60
  | _ => 0

end Token

/-- A token list shows a token as its name, its form and its place. -/
def Located.text (t : Located) : String :=
  s!"{t.token.name}({String.ofList t.token.source})@{t.start}"

end JmesPath
