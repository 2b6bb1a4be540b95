import JmesPath.Number.Binary64

/-! # Decimal fractions

A `Decimal` is a whole coefficient scaled by a power of ten.

* `Binary64.ofDecimal` — the binary64 number nearest to a decimal
* `Decimal.shortest` — the decimal of fewest digits that is nearest to a given
  magnitude, and of those the one closest to it

`Decimal.shortest` tries one digit, two digits, up to seventeen, and tests on each
grid the two neighbours of the magnitude.  A decimal is taken only if it reads
back, so the answer always does; should no grid have a hit, the exact expansion
of the magnitude is the answer.
-/

namespace JmesPath

/-- The decimal fraction `coefficient * 10 ^ exponent`. -/
structure Decimal where
  coefficient : Nat
  exponent : Int
  deriving DecidableEq

namespace Decimal

def digitCount (n : Nat) : Nat := (Nat.toDigits 10 n).length

/-- The power of ten of the leading digit. -/
def lead (d : Decimal) : Int := d.exponent + digitCount d.coefficient - 1

/-- The digits of the coefficient without the zeros at their end. -/
def significant (d : Decimal) : List Char :=
  ((Nat.toDigits 10 d.coefficient).reverse.dropWhile (· == '0')).reverse

end Decimal

/-- The number nearest to a decimal.  Decimals whose leading digit stands beyond
    the four hundredth place are far outside the range, and their powers of ten
    are not worked out. -/
def Binary64.ofDecimal (negative : Bool) (d : Decimal) : Binary64 :=
  if d.coefficient = 0 ∨ d.lead < -400 then .zero negative
  else if 400 < d.lead then .infinity negative
  else if 0 ≤ d.exponent then .ofRatio negative (d.coefficient * Nat.pow 10 d.exponent.toNat) 1
  else .ofRatio negative d.coefficient (Nat.pow 10 (-d.exponent).toNat)

namespace Decimal

/-- Whether the number nearest to the decimal has this magnitude. -/
def readsAs (d : Decimal) (magnitude : Nat) : Bool :=
  match Binary64.ofDecimal false d with
  | .finite _ m _ => m == magnitude
  | _ => false

/-- The power of ten of a magnitude's leading digit. -/
def leadOf (magnitude : Nat) : Int :=
  if Binary64.one ≤ magnitude then (digitCount (magnitude / Binary64.one) : Int) - 1
  else -(digitCount ((Binary64.one - 1) / magnitude) : Int)

/-- A magnitude as a quotient in units of `10 ^ place`. -/
def scaled (magnitude : Nat) (place : Int) : Nat × Nat :=
  if 0 ≤ place then (magnitude, Binary64.one * Nat.pow 10 place.toNat)
  else (magnitude * Nat.pow 10 (-place).toNat, Binary64.one)

/-- The two multiples of `10 ^ place` around a magnitude, the closer one first; of
    two equally close ones the larger is first. -/
def neighbours (magnitude : Nat) (place : Int) : List Decimal :=
  let (num, den) := scaled magnitude place
  let low := num / den
  if 2 * (num % den) < den then [⟨low, place⟩, ⟨low + 1, place⟩]
  else [⟨low + 1, place⟩, ⟨low, place⟩]

def exact (magnitude : Nat) : Decimal := ⟨magnitude * Nat.pow 5 1074, -1074⟩

/-- The shortest decimal that reads back as the magnitude. -/
def shortest (magnitude : Nat) : Decimal :=
  let lead := leadOf magnitude
  let hit := (List.range 17).findSome? fun (more : Nat) =>
    (neighbours magnitude (lead - more)).find? (readsAs · magnitude)
  hit.getD (exact magnitude)

end Decimal

end JmesPath
