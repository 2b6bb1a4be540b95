import JmesPath.Json.Reader
import JmesPath.Token.Basic
import JmesPath.Token.Error

/-! # Splitting a query into tokens

* `Scanner.delimited?` — text up to a closing quote
* `Scanner.word` — the token at the front of text, and how many characters it takes
* `Cursor` — a place in a query; `Cursor.next` reads the next token
* `tokenize` — all tokens of a query

A word that is faulty is read to its end before the fault is reported, except a
character that starts no word: it is not read at all.
-/

namespace JmesPath

namespace Scanner

def isSpace (c : Char) : Bool := c == ' ' || c == '\t' || c == '\n' || c == '\r'

def startsName (c : Char) : Bool := c.isAlpha || c == '_'

def continuesName (c : Char) : Bool := c.isAlphanum || c == '_'

/-- The text up to a closing quote.  A backslash in front of one of the `escapable`
    characters takes that character along, so that it does not end the text; both stay
    in the text. -/
def delimited? (quote : Char) (escapable : List Char) : List Char → Option (List Char)
  | [] => none
  | c :: cs =>
    if c = quote then some []
    else match cs with
      | d :: ds =>
        if c = '\\' ∧ d ∈ escapable then
          (delimited? quote escapable ds).map fun inner => c :: d :: inner
        else (delimited? quote escapable (d :: ds)).map (c :: ·)
      | [] => none

/-- The text of a raw string: a backslash in front of a quote or a backslash is
    dropped. -/
def unescapeRaw : List Char → List Char
  | '\\' :: '\'' :: cs => '\'' :: unescapeRaw cs
  | '\\' :: '\\' :: cs => '\\' :: unescapeRaw cs
  | c :: cs => c :: unescapeRaw cs
  | [] => []

/-- The text of a literal: a backslash in front of a backtick is dropped. -/
def unescapeLiteral : List Char → List Char
  | '\\' :: '\x60' :: cs => '\x60' :: unescapeLiteral cs
  | c :: cs => c :: unescapeLiteral cs
  | [] => []

/-- Whether a literal is a JSON document and not the inside of a JSON string. -/
def looksLikeJson (body : List Char) : Bool :=
  match body with
  | [] => false
  | c :: _ =>
    if c == '[' || c == '\x7b' || c == '"' then true
    -- What only starts like a number is text.
    else if c == '-' || c.isDigit then (Json.read body).isOk
    else body == "true".toList || body == "false".toList || body == "null".toList

def literalValue (inner : List Char) : Except Json.Error Value :=
  let body := trimStart (unescapeLiteral inner)
  if looksLikeJson body then (Json.read body).map Value.ofJson
  else (Json.unquote body).map Value.string

/-- What was read at the front of text: a token or a fault, and how many characters it
    takes. -/
structure Word where
  result : Except LexError Token
  length : Nat

/-- A word between quotes, from behind the opening one; `read` turns the text between
    them into a token. -/
def quotedWord (quote : Char) (escapable : List Char) (start : Nat)
    (read : List Char → Except LexError Token) (cs : List Char) : Word :=
  match delimited? quote escapable cs with
  | some inner => ⟨read inner, inner.length + 2⟩
  | none => ⟨.error (.unterminated quote start), cs.length + 1⟩

/-- A whole number with these digits.  It has to fit 64 bits with a sign. -/
def wholeNumber (negative : Bool) (start : Nat) (digits : List Char) :
    Except LexError Token :=
  let n : Int := Nat.ofDigitChars 10 digits 0
  let i := if negative then -n else n
  if Int64.minValue.toInt ≤ i ∧ i ≤ Int64.maxValue.toInt then .ok (.number i)
  else .error (.invalidNumber start)

/-- One token if `second` comes next, and another one otherwise. -/
def oneOrTwo (second : Char) (pair single : Token) (cs : List Char) : Word :=
  if cs.head? = some second then ⟨.ok pair, 2⟩ else ⟨.ok single, 1⟩

def single? : Char → Option Token
  | '.' => some .dot
  | '*' => some .star
  | ',' => some .comma
  | ':' => some .colon
  | '\x7b' => some .openBrace
  | '\x7d' => some .closeBrace
  | ']' => some .closeBracket
  | '(' => some .openParen
  | ')' => some .closeParen
  | '@' => some .current
  | _ => none

/-- The word that starts with `c`; `start` is its place. -/
def word (start : Nat) (c : Char) (cs : List Char) : Word :=
  -- Such a character is not taken, so reading on meets it again.
  let unknown : Word := ⟨.error (.unknownCharacter c start), 0⟩
  if startsName c then
    let more := cs.takeWhile continuesName
    ⟨.ok (.identifier (String.ofList (c :: more))), more.length + 1⟩
  else if c.isDigit then
    let more := cs.takeWhile Char.isDigit
    ⟨wholeNumber false start (c :: more), more.length + 1⟩
  else match single? c with
    | some token => ⟨.ok token, 1⟩
    | none =>
      match c with
      | '[' =>
        match cs.head? with
        | some '?' => ⟨.ok .filter, 2⟩
        | some ']' => ⟨.ok .flatten, 2⟩
        | _ => ⟨.ok .openBracket, 1⟩
      | '-' =>
        let digits := cs.takeWhile Char.isDigit
        if digits.isEmpty then unknown
        else ⟨wholeNumber true start digits, digits.length + 1⟩
      | '"' => quotedWord '"' ['"', '\\'] start (fun inner =>
          match Json.unquote inner with
          | .ok name => .ok (.quotedIdentifier name)
          | .error e => .error (.invalidQuotedIdentifier start e)) cs
      | '\'' => quotedWord '\'' ['\'', '\\'] start (fun inner =>
          .ok (.literal (.string (String.ofList (unescapeRaw inner))))) cs
      | '\x60' => quotedWord '\x60' ['\x60'] start (fun inner =>
          match literalValue inner with
          | .ok v => .ok (.literal v)
          | .error e => .error (.invalidLiteral start e)) cs
      | '!' => oneOrTwo '=' (.compare .notEqual) .not cs
      | '<' => oneOrTwo '=' (.compare .lessEqual) (.compare .less) cs
      | '>' => oneOrTwo '=' (.compare .greaterEqual) (.compare .greater) cs
      | '=' => if cs.head? = some '=' then ⟨.ok (.compare .equal), 2⟩ else unknown
      | '&' => oneOrTwo '&' .and .ampersand cs
      | '|' => oneOrTwo '|' .or .pipe cs
      | _ => unknown

/-! ## Progress -/

theorem quotedWord_length_pos (quote : Char) (escapable : List Char) (start : Nat)
    (read : List Char → Except LexError Token) (cs : List Char) :
    0 < (quotedWord quote escapable start read cs).length := by
  unfold quotedWord
  split
  · exact Nat.succ_pos _
  · exact Nat.succ_pos _

theorem oneOrTwo_length_pos (second : Char) (pair single : Token) (cs : List Char) :
    0 < (oneOrTwo second pair single cs).length := by
  unfold oneOrTwo
  split
  · exact Nat.succ_pos _
  · exact Nat.succ_pos _

/-- A word takes a character, unless the character at hand is unknown. -/
theorem word_length_pos (start : Nat) (c : Char) (cs : List Char) :
    0 < (word start c cs).length ∨
      (word start c cs) = ⟨.error (.unknownCharacter c start), 0⟩ := by
  unfold word
  split
  · exact .inl (Nat.succ_pos _)
  · split
    · exact .inl (Nat.succ_pos _)
    · split
      · exact .inl (Nat.succ_pos _)
      · split
        · split
          · exact .inl (Nat.succ_pos _)
          · exact .inl (Nat.succ_pos _)
          · exact .inl (Nat.succ_pos _)
        · simp only
          split
          · exact .inr rfl
          · exact .inl (Nat.succ_pos _)
        · exact .inl (quotedWord_length_pos _ _ _ _ _)
        · exact .inl (quotedWord_length_pos _ _ _ _ _)
        · exact .inl (quotedWord_length_pos _ _ _ _ _)
        · exact .inl (oneOrTwo_length_pos _ _ _ _)
        · exact .inl (oneOrTwo_length_pos _ _ _ _)
        · exact .inl (oneOrTwo_length_pos _ _ _ _)
        · split
          · exact .inl (Nat.succ_pos _)
          · exact .inr rfl
        · exact .inl (oneOrTwo_length_pos _ _ _ _)
        · exact .inl (oneOrTwo_length_pos _ _ _ _)
        · exact .inr rfl

end Scanner

/-- A place in a query: the number of characters read, and the characters left. -/
structure Cursor where
  position : Nat
  rest : List Char
  deriving DecidableEq

namespace Cursor

def start (source : List Char) : Cursor := ⟨0, source⟩

def advance (c : Cursor) (count : Nat) : Cursor := ⟨c.position + count, c.rest.drop count⟩

def skipSpace (c : Cursor) : Cursor := c.advance (c.rest.takeWhile Scanner.isSpace).length

/-- The next token, if there is one, or what is wrong with it; and the place where
    reading goes on, also after a fault. -/
def next (c : Cursor) : Except LexError (Option Located) × Cursor :=
  let c := c.skipSpace
  match c.rest with
  | [] => (.ok none, c)
  | first :: others =>
    let w := Scanner.word c.position first others
    (w.result.map fun token => some ⟨token, c.position⟩, c.advance w.length)

theorem advance_rest_length (c : Cursor) (count : Nat) :
    (c.advance count).rest.length = c.rest.length - count := List.length_drop

theorem next_length_lt {c c' : Cursor} {t : Located} (h : c.next = (.ok (some t), c')) :
    c'.rest.length < c.rest.length := by
  have hskip : c.skipSpace.rest.length ≤ c.rest.length :=
    advance_rest_length c _ ▸ Nat.sub_le _ _
  simp only [next] at h
  split at h
  · cases h
  · next first others hrest =>
    simp only [Prod.mk.injEq] at h
    obtain ⟨hresult, rfl⟩ := h
    rcases Scanner.word_length_pos c.skipSpace.position first others with hw | hw
    · rw [advance_rest_length]
      rw [hrest] at hskip ⊢
      simp only [List.length_cons] at hskip ⊢
      omega
    · rw [hw] at hresult
      cases hresult

def tokens (c : Cursor) : Except LexError (List Located) :=
  match _h : c.next with
  | (.ok none, _) => .ok []
  | (.ok (some t), c') =>
    match tokens c' with
    | .ok ts => .ok (t :: ts)
    | .error e => .error e
  | (.error e, _) => .error e
termination_by c.rest.length
decreasing_by exact next_length_lt ‹_›

end Cursor

def tokenize (source : List Char) : Except LexError (List Located) :=
  (Cursor.start source).tokens

end JmesPath
