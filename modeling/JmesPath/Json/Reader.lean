import JmesPath.Json.NumberReader
import JmesPath.Json.StringReader

/-! # Reading JSON documents

The reader takes JSON text with white space around it.  Arrays and objects may be
nested 127 levels deep.  A key that comes twice keeps its first place and its last
value.

* `Json.Reader.value` — a document, for a number of nesting levels
* `Json.read` — a whole text
* `Json.unquote` — the text that a JSON string stands for
-/

namespace JmesPath.Json.Reader

def isSpace (c : Char) : Bool := c == ' ' || c == '\n' || c == '\t' || c == '\r'

def skipSpace (s : List Char) : List Char := s.dropWhile isSpace

theorem skipSpace_length_le (s : List Char) : (skipSpace s).length ≤ s.length :=
  (List.dropWhile_sublist _).length_le

def afterSpace {α : Type} (s : List Char)
    (read : (t : List Char) → Reading (Rest Char t.length α)) :
    Reading (Rest Char s.length α) := do
  let r ← read (skipSpace s)
  .ok (r.widen (skipSpace_length_le s))

/-- A reader of one value. -/
abbrev ItemReader := (s : List Char) → Reading (Rest Char s.length Json)

def word (letters : List Char) (s : List Char) : Reading (Rest Char (s.length + 1) Unit) :=
  match letters, s with
  | [], s => .ok (.leaving () s)
  | _ :: _, [] => failAtEnd .endInValue
  | l :: ls, c :: cs => do
    if c = l then
      let r ← word ls cs
      .ok r.succ
    else failAt .expectedWord (c :: cs)

/-- A word of which the first letter has been read, and what it means. -/
def meaning (letters : List Char) (j : Json) (s : List Char) :
    Reading (Rest Char (s.length + 1) Json) := do
  let r ← word letters s
  .ok (r.map fun _ => j)

/-- What stands behind an item of an array; whether another one comes. -/
def moreItems (s : List Char) : Reading (Rest Char s.length Bool) :=
  afterSpace s fun
    | [] => failAtEnd .endInList
    | ']' :: rest => .ok (.leaving false rest)
    | ',' :: rest =>
      match skipSpace rest with
      | [] => failAtEnd .endInValue
      | ']' :: r => failAt .trailingComma (']' :: r)
      | _ => .ok (.leaving true rest)
    | c :: rest => failAt .expectedListEnd (c :: rest)

/-- The items of an array, read from behind its opening bracket. -/
def items (item : ItemReader) (s : List Char) : Reading (Rest Char s.length (List Json)) :=
  afterSpace s fun
    | [] => failAtEnd .endInList
    | ']' :: rest => .ok (.leaving [] rest)
    | c :: rest => Rest.list item moreItems (c :: rest)

/-- The key of a member and its colon, read from behind the opening quote. -/
def key (s : List Char) : Reading (Rest Char s.length String) := do
  let text ← stringBody s
  let colon ← afterSpace text.rest fun
    | [] => failAtEnd .endInObject
    | ':' :: rest => .ok (.leaving () rest)
    | c :: rest => failAt .expectedColon (c :: rest)
  .ok (text.andThen (colon.map fun _ => String.ofList text.value))

/-- A key from behind its opening quote, a colon, and a value. -/
def member (item : ItemReader) (s : List Char) :
    Reading (Rest Char s.length (String × Json)) := do
  let name ← key s
  let value ← item name.rest
  .ok (name.andThen (value.map (name.value, ·)))

/-- What stands behind a member of an object; whether another one comes, and then its
    opening quote too. -/
def moreMembers (s : List Char) : Reading (Rest Char s.length Bool) :=
  afterSpace s fun
    | [] => failAtEnd .endInObject
    | '\x7d' :: rest => .ok (.leaving false rest)
    | ',' :: rest => do
      let quote ← afterSpace rest fun
        | [] => failAtEnd .endInValue
        | '"' :: r => .ok (.leaving true r)
        | '\x7d' :: r => failAt .trailingComma ('\x7d' :: r)
        | c :: r => failAt .keyNotString (c :: r)
      .ok quote.succ
    | c :: rest => failAt .expectedObjectEnd (c :: rest)

/-- The members of an object, read from behind its opening brace. -/
def members (item : ItemReader) (s : List Char) :
    Reading (Rest Char s.length (List (String × Json))) :=
  afterSpace s fun
    | [] => failAtEnd .endInObject
    | '\x7d' :: rest => .ok (.leaving [] rest)
    | '"' :: rest => do
      let all ← Rest.list (member item) moreMembers rest
      .ok all.succ
    | c :: rest => failAt .keyNotString (c :: rest)

/-- A value that starts with its first character; `inside?` reads what stands in
    brackets and braces, unless they are nested too deep. -/
def valueAt (inside? : Option ItemReader) (c : Char) (cs : List Char) :
    Reading (Rest Char (cs.length + 1) Json) :=
  match c with
  | 'n' => meaning ['u', 'l', 'l'] .null cs
  | 't' => meaning ['r', 'u', 'e'] (.boolean true) cs
  | 'f' => meaning ['a', 'l', 's', 'e'] (.boolean false) cs
  | '"' => do
    let text ← stringBody cs
    .ok (text.map fun t => Json.string (String.ofList t)).succ
  | '[' => do
    match inside? with
    | some item =>
      let r ← items item cs
      .ok (r.map Json.array).succ
    | none => failAt .tooDeep (c :: cs)
  | '\x7b' => do
    match inside? with
    | some item =>
      let r ← members item cs
      .ok (r.map fun ms => Json.object (Members.ofList ms)).succ
    | none => failAt .tooDeep (c :: cs)
  | c =>
    if c == '-' || c.isDigit then do
      let n ← number (c :: cs)
      .ok (n.map Json.number)
    else failAt .expectedValue (c :: cs)

def valueWith (inside? : Option ItemReader) : ItemReader := fun s =>
  afterSpace s fun
    | [] => failAtEnd .endInValue
    | c :: cs => valueAt inside? c cs

/-- A value with at most so many levels of brackets and braces. -/
def value : (levels : Nat) → ItemReader
  | 0 => valueWith none
  | n + 1 => valueWith (some (value n))

def maxLevels : Nat := 127

/-- Nothing but white space is left. -/
def finish (s : List Char) : Reading Unit :=
  match skipSpace s with
  | [] => .ok ()
  | c :: cs => failAt .trailingCharacters (c :: cs)

def document (s : List Char) : Reading Json := do
  let r ← value maxLevels s
  finish r.rest
  .ok r.value

/-- The characters of a string with nothing behind it, read from behind its opening
    quote. -/
def onlyString (s : List Char) : Reading (List Char) := do
  let r ← stringBody s
  finish r.rest
  .ok r.value

end Reader

def read (text : List Char) : Except Error Json :=
  (Reader.document text).mapError (Fault.locate text)

/-- Reads text as what stands between the quotes of a JSON string. -/
def unquote (inner : List Char) : Except Error String :=
  let text := inner ++ ['"']
  match Reader.onlyString text with
  | .ok s => .ok (String.ofList s)
  | .error f => .error (f.locate ('"' :: text))

def ofString (s : String) : Except Error Json := read s.toList

end JmesPath.Json
