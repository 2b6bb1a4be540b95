import JmesPath.Number.Decimal

/-! # Numerals

The written form of numbers.

* `NumeralLayout` — which numbers are written positionally
* `Binary64.numeral?` — the text of a finite number: its shortest digits, written
  positionally or with an exponent
* `Numeral`, `Numeral.read?` — the numerals that text may hold
* `Binary64.read?` — the number that text stands for
-/

namespace JmesPath

def integerNumeral (i : Int) : List Char :=
  if i < 0 then '-' :: Nat.toDigits 10 i.natAbs else Nat.toDigits 10 i.natAbs

/-! ## Writing -/

/-- The leading places that are written positionally; numbers outside are written
    with an exponent. -/
structure NumeralLayout where
  lowest : Int
  highest : Int

namespace NumeralLayout

/-- Numbers from a millionth up to, but not including, `10 ^ 21` are positional. -/
def standard : NumeralLayout := ⟨-6, 20⟩

/-- Digits written out around the point. -/
def positional (digits : List Char) (lead : Int) : List Char :=
  if lead < 0 then '0' :: '.' :: (List.replicate (-lead - 1).toNat '0' ++ digits)
  else
    let whole := lead.toNat + 1
    if digits.length ≤ whole then digits ++ List.replicate (whole - digits.length) '0'
    else digits.take whole ++ '.' :: digits.drop whole

/-- One digit, the others after a point, and the exponent with its sign. -/
def scientific (digits : List Char) (lead : Int) : List Char :=
  let fraction := digits.drop 1
  let exponent := (if lead < 0 then '-' else '+') :: Nat.toDigits 10 lead.natAbs
  digits.take 1 ++ (if fraction.isEmpty then [] else '.' :: fraction) ++ 'e' :: exponent

def write (layout : NumeralLayout) (magnitude : Nat) : List Char :=
  if magnitude = 0 then ['0']
  else
    let d := Decimal.shortest magnitude
    if layout.lowest ≤ d.lead ∧ d.lead ≤ layout.highest then positional d.significant d.lead
    else scientific d.significant d.lead

end NumeralLayout

/-- The text of a finite number.  Zero keeps its sign. -/
def Binary64.numeral? : Binary64 → Option (List Char)
  | .finite negative m _ =>
    let digits := NumeralLayout.standard.write m
    some (if negative then '-' :: digits else digits)
  | _ => none

/-! ## Reading -/

/-- The parts of a written decimal number. -/
structure Numeral where
  negative : Bool
  whole : List Char
  fraction : List Char
  exponent : Int
  deriving DecidableEq

namespace Numeral

/-- An optional sign; whether it was a minus. -/
def sign : List Char → Bool × List Char
  | '-' :: cs => (true, cs)
  | '+' :: cs => (false, cs)
  | cs => (false, cs)

def fractionPart : List Char → List Char × List Char
  | '.' :: cs => (cs.takeWhile Char.isDigit, cs.dropWhile Char.isDigit)
  | cs => ([], cs)

/-- The exponent, which ends the text: `e` or `E`, a sign or none, and digits. -/
def exponentPart? : List Char → Option Int
  | [] => some 0
  | c :: cs =>
    let (negative, digits) := sign cs
    if (c == 'e' || c == 'E') && !digits.isEmpty && digits.all Char.isDigit then
      let n := Nat.ofDigitChars 10 digits 0
      some (if negative then -(n : Int) else n)
    else none

/-- A sign or none; digits, a point with more digits after it, or both, with at
    least one digit on either side of the point; an exponent or none. -/
def read? (text : List Char) : Option Numeral := do
  let (negative, text) := sign text
  let whole := text.takeWhile Char.isDigit
  let (fraction, text) := fractionPart (text.dropWhile Char.isDigit)
  let exponent ← exponentPart? text
  if whole.isEmpty && fraction.isEmpty then none
  else some { negative, whole, fraction, exponent }

def decimal (n : Numeral) : Decimal where
  coefficient := Nat.ofDigitChars 10 (n.whole ++ n.fraction) 0
  exponent := n.exponent - n.fraction.length

end Numeral

/-- The words for numbers that are not finite, in letters of either case. -/
def Binary64.ofWord? (negative : Bool) (word : List Char) : Option Binary64 :=
  let lower := word.map Char.toLower
  if lower = "inf".toList ∨ lower = "infinity".toList then some (.infinity negative)
  else if lower = "nan".toList then some .nan
  else none

/-- The number that text stands for: the one nearest to a numeral, or behind a sign or none
    one that has a word. -/
def Binary64.read? (text : List Char) : Option Binary64 :=
  match Numeral.read? text with
  | some n => some (.ofDecimal n.negative n.decimal)
  | none =>
    let (negative, word) := Numeral.sign text
    ofWord? negative word

end JmesPath
