/-! # Binary64 numbers

The numbers of the query language are IEEE 754 binary64 numbers.  Every finite
one is a whole number of units of `2 ^ -1074`, so a finite number is stored as a
sign and a *magnitude*: how many such units it holds.  Comparison is then
comparison of integers, and arithmetic is "compute exactly, then round".

* `halfEven` — the natural number nearest to a quotient, ties to even
* `Binary64` — a not-a-number, the two infinities, the finite numbers
* `Binary64.ofUnits`, `ofRatio`, `ofInt` — rounding to nearest
* `Binary64.key`, `compare?`, `equal` — the order
* `Binary64.add`, `mul`, `div`, `floor`, `ceil`, `round` — arithmetic
* `Binary64.integer?` — the integer a number stands for
-/

namespace JmesPath

/-- The natural number nearest to `num / den`; a tie goes to the even neighbour. -/
def halfEven (num den : Nat) : Nat :=
  let q := num / den
  let r := num % den
  if 2 * r < den ∨ (2 * r = den ∧ q % 2 = 0) then q else q + 1

/-- The number one, counted in units of `2 ^ -1074`. -/
def Binary64.one : Nat := 1 <<< 1074

/-- All finite magnitudes lie below this one. -/
def Binary64.limit : Nat := 1 <<< 2098

/-- The magnitudes of finite numbers: below the limit, with at most 53
    significant bits. -/
def Binary64.Representable (n : Nat) : Prop :=
  n < Binary64.limit ∧ n % (1 <<< (n.log2 - 52)) = 0

instance (n : Nat) : Decidable (Binary64.Representable n) :=
  inferInstanceAs (Decidable (_ ∧ _))

/-- A binary64 number.  Zero has a sign of its own; all not-a-numbers are one. -/
inductive Binary64
  | nan
  | infinity (negative : Bool)
  | finite (negative : Bool) (magnitude : Nat) (fits : Binary64.Representable magnitude)
  deriving DecidableEq

namespace Binary64

/-! ## Rounding -/

/-- The magnitude nearest to `num / den` among the multiples of the last place
    that 53 bits leave at that size; a tie goes to the even multiple. -/
def nearest (num den : Nat) : Nat :=
  let place := 1 <<< ((num / den).log2 - 52)
  halfEven num (den * place) * place

/-- The number nearest to `num / den` units; past the limit, an infinity. -/
def ofUnits (negative : Bool) (num den : Nat) : Binary64 :=
  if h : Representable (nearest num den) then .finite negative _ h else .infinity negative

/-- The number nearest to `num / den`. -/
def ofRatio (negative : Bool) (num den : Nat) : Binary64 :=
  ofUnits negative (num * one) den

def ofInt (i : Int) : Binary64 :=
  ofRatio (decide (i < 0)) i.natAbs 1

def zero (negative : Bool) : Binary64 :=
  .finite negative 0 (by decide +kernel)

/-! ## Order -/

def signed (negative : Bool) (m : Nat) : Int :=
  if negative then -(m : Int) else m

/-- A number's place on the number line, in units; the infinities stand at the
    limit, just outside the finite numbers, and a not-a-number stands nowhere. -/
def key : Binary64 → Option Int
  | .nan => none
  | .infinity negative => some (signed negative limit)
  | .finite negative m _ => some (signed negative m)

/-- The order of two numbers; a not-a-number is in no order with anything. -/
def compare? (a b : Binary64) : Option Ordering :=
  match a.key, b.key with
  | some x, some y => some (compare x y)
  | _, _ => none

/-- Numeric equality: the two zeros are equal, a not-a-number equals nothing. -/
def equal (a b : Binary64) : Bool :=
  a.compare? b == some .eq

/-! ## Classes -/

def isFinite : Binary64 → Bool
  | .finite .. => true
  | _ => false

def isInfinite : Binary64 → Bool
  | .infinity _ => true
  | _ => false

def isZero : Binary64 → Bool
  | .finite _ m _ => m == 0
  | _ => false

def isNaN : Binary64 → Bool
  | .nan => true
  | _ => false

/-! ## Arithmetic -/

def neg : Binary64 → Binary64
  | .nan => .nan
  | .infinity negative => .infinity !negative
  | .finite negative m h => .finite (!negative) m h

def abs : Binary64 → Binary64
  | .nan => .nan
  | .infinity _ => .infinity false
  | .finite _ m h => .finite false m h

/-- The sum.  An exact zero is positive unless both operands are negative. -/
def add : Binary64 → Binary64 → Binary64
  | .finite s m _, .finite t n _ =>
    let total := signed s m + signed t n
    if total = 0 then zero (s && t) else ofUnits (decide (total < 0)) total.natAbs 1
  | .infinity s, .infinity t => if s = t then .infinity s else .nan
  | .infinity s, .finite .. => .infinity s
  | .finite .., .infinity t => .infinity t
  | _, _ => .nan

def mul : Binary64 → Binary64 → Binary64
  | .finite s m _, .finite t n _ => ofUnits (s ^^ t) (m * n) one
  | .infinity s, .infinity t => .infinity (s ^^ t)
  | .infinity s, .finite t n _ => if n = 0 then .nan else .infinity (s ^^ t)
  | .finite s m _, .infinity t => if m = 0 then .nan else .infinity (s ^^ t)
  | _, _ => .nan

def div : Binary64 → Binary64 → Binary64
  | .finite s m _, .finite t n _ =>
    if n = 0 then (if m = 0 then .nan else .infinity (s ^^ t))
    else ofUnits (s ^^ t) (m * one) n
  | .infinity s, .finite t _ _ => .infinity (s ^^ t)
  | .finite s _ _, .infinity t => zero (s ^^ t)
  | _, _ => .nan

/-- The number whose magnitude is the given count of ones. -/
def ofWhole (negative : Bool) (ones : Nat) : Binary64 :=
  ofUnits negative (ones * one) 1

/-- The largest integer not above the number; a zero keeps the sign. -/
def floor : Binary64 → Binary64
  | .finite false m _ => ofWhole false (m / one)
  | .finite true m _ => ofWhole true ((m + (one - 1)) / one)
  | x => x

/-- The smallest integer not below the number; a zero keeps the sign. -/
def ceil : Binary64 → Binary64
  | .finite false m _ => ofWhole false ((m + (one - 1)) / one)
  | .finite true m _ => ofWhole true (m / one)
  | x => x

/-- The nearest integer; a tie goes away from zero. -/
def round : Binary64 → Binary64
  | .finite negative m _ => ofWhole negative ((2 * m + one) / (2 * one))
  | x => x

/-- The integer that the number stands for, if it has no fractional part. -/
def integer? : Binary64 → Option Int
  | .finite negative m _ => if m % one = 0 then some (signed negative (m / one)) else none
  | _ => none

end Binary64

end JmesPath
