import JmesPath.Text.Class
import JmesPath.Text.Pattern

/-! # The syntax of numbers in text

Text is taken for a number only if it looks like a decimal numeral between white space.  The
pattern has white space and digits of all scripts; which digits count is decided when the
numeral is read.

* `NumberSyntax.sign`, `mantissa`, `exponent` — the parts of a numeral
* `numberSyntax` — a numeral between white space
-/

namespace JmesPath

namespace NumberSyntax

def blanks : Pattern := .many (.one isBlank)

def digit : Pattern := .one CharClass.decimalDigit.contains

def point : Pattern := .one (· == '.')

def sign : Pattern := (Pattern.one fun c => c == '+' || c == '-').optional

/-- Digits, a point or none and more digits; or a point and digits. -/
def mantissa : Pattern :=
  .either (.sequence [digit.oneOrMore, point.optional, .many digit])
    (.sequence [point, digit.oneOrMore])

/-- An `e` in either case, a sign or none, and digits; or nothing at all. -/
def exponent : Pattern :=
  (Pattern.sequence [.one fun c => c == 'e' || c == 'E', sign, digit.oneOrMore]).optional

end NumberSyntax

open NumberSyntax in
/-- A decimal numeral between white space. -/
def numberSyntax : Pattern := .sequence [blanks, sign, mantissa, exponent, blanks]

end JmesPath
