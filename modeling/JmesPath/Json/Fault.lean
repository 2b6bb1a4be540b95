import JmesPath.Rest

/-! # Faults in JSON text

* `Json.Cause` — what can be wrong with JSON text, with its wording
* `Json.Fault` — a cause, and how many bytes were unread when it was found
* `Json.Position` — a line and a column, counted in bytes
* `Json.Error` — a cause with its position
-/

namespace JmesPath.Json

/-- What can be wrong with JSON text. -/
inductive Cause
  | endInList
  | endInObject
  | endInString
  | endInValue
  | expectedColon
  | expectedListEnd
  | expectedObjectEnd
  | expectedWord
  | expectedValue
  | invalidEscape
  | invalidNumber
  | numberOutOfRange
  | controlCharacter
  | keyNotString
  | loneSurrogate
  | trailingComma
  | trailingCharacters
  | incompletePair
  | tooDeep
  deriving DecidableEq

def Cause.message : Cause → String
  | .endInList => "EOF while parsing a list"
  | .endInObject => "EOF while parsing an object"
  | .endInString => "EOF while parsing a string"
  | .endInValue => "EOF while parsing a value"
  | .expectedColon => "expected `:`"
  | .expectedListEnd => "expected `,` or `]`"
  | .expectedObjectEnd => "expected `,` or `\x7d`"
  | .expectedWord => "expected ident"
  | .expectedValue => "expected value"
  | .invalidEscape => "invalid escape"
  | .invalidNumber => "invalid number"
  | .numberOutOfRange => "number out of range"
  | .controlCharacter => "control character (\\u0000-\\u001F) found while parsing a string"
  | .keyNotString => "key must be a string"
  | .loneSurrogate => "lone leading surrogate in hex escape"
  | .trailingComma => "trailing comma"
  | .trailingCharacters => "trailing characters"
  | .incompletePair => "unexpected end of hex escape"
  | .tooDeep => "recursion limit exceeded"

/-- A cause, and the number of bytes that were not read yet when it was found. -/
structure Fault where
  cause : Cause
  left : Nat
  deriving DecidableEq

/-- A reader's answer: a fault or a result. -/
abbrev Reading (α : Type) := Except Fault α

/-- How many bytes UTF-8 takes for text. -/
def byteCount (text : List Char) : Nat := (String.ofList text).utf8ByteSize

section

variable {α : Type}

/-- The text is over too early. -/
def failAtEnd (cause : Cause) : Reading α := .error ⟨cause, 0⟩

/-- The fault was found with all of `rest` unread. -/
def failBefore (cause : Cause) (rest : List Char) : Reading α :=
  .error ⟨cause, byteCount rest⟩

/-- The first byte of `rest` is at fault. -/
def failAt (cause : Cause) (rest : List Char) : Reading α :=
  .error ⟨cause, byteCount rest - 1⟩

end

/-! ## Positions -/

/-- A place in text: the line, from one, and the number of bytes read of it. -/
structure Position where
  line : Nat
  column : Nat
  deriving DecidableEq

/-- The place after `bytes` more bytes; a line feed starts a new line. -/
def Position.after : Position → List Char → (bytes : Nat) → Position
  | p, [], _ => p
  | p, c :: cs, bytes =>
    if bytes < c.utf8Size then { p with column := p.column + bytes }
    else
      let next := if c = '\n' then ⟨p.line + 1, 0⟩ else ⟨p.line, p.column + c.utf8Size⟩
      Position.after next cs (bytes - c.utf8Size)

/-- A cause with the place where it was found. -/
structure Error where
  cause : Cause
  position : Position
  deriving DecidableEq

def Error.message (e : Error) : String :=
  s!"{e.cause.message} at line {e.position.line} column {e.position.column}"

def Fault.locate (text : List Char) (f : Fault) : Error :=
  ⟨f.cause, Position.after ⟨1, 0⟩ text (byteCount text - f.left)⟩

end JmesPath.Json
