import JmesPath.Json.Fault

/-! # Faults in the words of a query

* `LexError` — what can be wrong with a word, and where
* `LexError.position`, `LexError.message`
-/

namespace JmesPath

/-- What can be wrong with a word of a query.  Positions count characters. -/
inductive LexError
  | unknownCharacter (c : Char) (position : Nat)
  | unterminated (quote : Char) (position : Nat)
  | invalidQuotedIdentifier (position : Nat) (reason : Json.Error)
  | invalidLiteral (position : Nat) (reason : Json.Error)
  | invalidNumber (position : Nat)
  deriving DecidableEq

namespace LexError

def position : LexError → Nat
  | .unknownCharacter _ p => p
  | .unterminated _ p => p
  | .invalidQuotedIdentifier p _ => p
  | .invalidLiteral p _ => p
  | .invalidNumber p => p

def message : LexError → String
  | .unknownCharacter c p => s!"unknown character '{c}' at position {p}"
  | .unterminated q p => s!"unterminated {q}-quoted token starting at position {p}"
  | .invalidQuotedIdentifier p reason =>
    s!"invalid quoted identifier at position {p}: {reason.message}"
  | .invalidLiteral p reason => s!"invalid literal at position {p}: {reason.message}"
  | .invalidNumber p => s!"invalid number at position {p}"

end LexError

end JmesPath
