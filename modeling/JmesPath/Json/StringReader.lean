import JmesPath.Json.Fault

/-! # Reading JSON strings

* `hexDigit?`, `fourHex` — hexadecimal code units
* `codePoint` — the character of a `\u` escape, or of two that make a surrogate pair
* `escape` — the character of an escape
* `stringItem`, `stringBody` — the characters of a string up to its closing quote
-/

namespace JmesPath.Json.Reader

def hexDigit? (c : Char) : Option Nat :=
  if c.isDigit then some (c.toNat - 48)
  else if 'a' ≤ c ∧ c ≤ 'f' then some (c.toNat - 87)
  else if 'A' ≤ c ∧ c ≤ 'F' then some (c.toNat - 55)
  else none

/-- The fault of text that does not start with four hexadecimal digits: too short, or
    wrong in one of its first four bytes. -/
def fourHexFault {α : Type} (s : List Char) : Reading α :=
  if byteCount s < 4 then failAtEnd .endInString
  else .error ⟨.invalidEscape, byteCount s - 4⟩

def fourHex (s : List Char) : Reading (Rest Char s.length Nat) :=
  match s with
  | a :: b :: c :: d :: rest =>
    match hexDigit? a, hexDigit? b, hexDigit? c, hexDigit? d with
    | some w, some x, some y, some z =>
      .ok (Rest.leaving (((w * 16 + x) * 16 + y) * 16 + z) rest).succ.succ.succ
    | _, _, _, _ => fourHexFault (a :: b :: c :: d :: rest)
  | s => fourHexFault s

/-- Whether a code unit is the first of a surrogate pair. -/
def isLeading (unit : Nat) : Bool := 0xD800 ≤ unit && unit ≤ 0xDBFF

/-- Whether a code unit is the second of a surrogate pair. -/
def isTrailing (unit : Nat) : Bool := 0xDC00 ≤ unit && unit ≤ 0xDFFF

def pairChar (leading trailing : Nat) : Char :=
  Char.ofNat ((leading - 0xD800) * 0x400 + (trailing - 0xDC00) + 0x10000)

/-- The second half of a surrogate pair, from its backslash on. -/
def trailingUnit (s : List Char) : Reading (Rest Char s.length Nat) :=
  match s with
  | '\\' :: 'u' :: rest => do
    let unit ← fourHex rest
    if isTrailing unit.value then
      .ok unit.succ.succ
    else failBefore .loneSurrogate unit.rest
  | [] => failAtEnd .endInString
  | ['\\'] => failAtEnd .endInString
  | '\\' :: rest => failAt .incompletePair rest
  | rest => failAt .incompletePair rest

/-- The character of a `\u` escape, read from its digits on. -/
def codePoint (s : List Char) : Reading (Rest Char s.length Char) := do
  let unit ← fourHex s
  if isTrailing unit.value then failBefore .loneSurrogate unit.rest
  else if isLeading unit.value then
    let second ← trailingUnit unit.rest
    .ok (unit.andThen (second.map (pairChar unit.value)))
  else .ok (unit.map Char.ofNat)

def letterEscape? : Char → Option Char
  | '"' => some '"'
  | '\\' => some '\\'
  | '/' => some '/'
  | 'b' => some '\x08'
  | 'f' => some '\x0c'
  | 'n' => some '\n'
  | 'r' => some '\r'
  | 't' => some '\t'
  | _ => none

/-- The character of an escape, read from behind its backslash. -/
def escape (s : List Char) : Reading (Rest Char s.length Char) :=
  match s with
  | [] => failAtEnd .endInString
  | 'u' :: rest => do
    let c ← codePoint rest
    .ok c.succ
  | c :: rest =>
    match letterEscape? c with
    | some d => .ok (.leaving d rest)
    | none => failAt .invalidEscape (c :: rest)

/-- The next character of a string, or none at its closing quote. -/
def stringItem (s : List Char) : Reading (Rest Char s.length (Option Char)) :=
  match s with
  | [] => failAtEnd .endInString
  | '"' :: rest => .ok (.leaving none rest)
  | '\\' :: rest => do
    let c ← escape rest
    .ok (c.map some).succ
  | c :: rest =>
    if c.toNat < 0x20 then failAt .controlCharacter (c :: rest)
    else .ok (.leaving (some c) rest)

/-- The characters of a string, read from behind its opening quote. -/
def stringBody (s : List Char) : Reading (Rest Char s.length (List Char)) :=
  Rest.unfold stringItem s

end JmesPath.Json.Reader
