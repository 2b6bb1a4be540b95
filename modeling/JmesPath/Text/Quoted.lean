import JmesPath.Text.GraphemeExtend
import JmesPath.Text.Unprintable

/-! # Quoted text

The quoted form of names in token lists and expression trees.  It shows every
character on one line: a character that would not print by itself is written as its
code point.

* `hexDigits` — a number in lowercase hexadecimal
* `needsCodePoint` — the characters that are written as their code points
* `quoteChar` — the written form of one character
* `quoted` — text between double quotes
-/

namespace JmesPath

def hexDigits (n : Nat) : List Char := Nat.toDigits 16 n

/-- Whether a character is a voiced or semi-voiced sound mark of halfwidth Katakana.  These
    two extend a grapheme, but they are letters with a cell of their own. -/
def isSoundMark (c : Char) : Bool := c == '\uFF9E' || c == '\uFF9F'

/-- Whether a character is written as its code point: it attaches to the one in front of
    it without being a sound mark, does not print, or leaves no mark. -/
def needsCodePoint (c : Char) : Bool :=
  (CharClass.graphemeExtend.contains c && !isSoundMark c) ||
    CharClass.unprintable.contains c || CharClass.defaultIgnorable.contains c

def quoteChar (c : Char) : List Char :=
  match c with
  | '\x00' => ['\\', '0']
  | '\t' => ['\\', 't']
  | '\r' => ['\\', 'r']
  | '\n' => ['\\', 'n']
  | '"' => ['\\', '"']
  | '\\' => ['\\', '\\']
  | c => if needsCodePoint c then ['\\', 'u', '\x7b'] ++ hexDigits c.toNat ++ ['\x7d'] else [c]

def quoted (s : String) : List Char :=
  '"' :: s.toList.flatMap quoteChar ++ ['"']

end JmesPath
