import JmesPath.Json.Basic
import JmesPath.Json.Fault

/-! # Reading JSON numbers

The digits of a number are gathered in a significand of 64 bits.  Digits that it
cannot take any more only count as places if they stand in front of the point, and
do not count behind it.  A number without fraction and exponent that 64 bits hold is
an integer; any other one is the significand times or divided by a power of ten, in
binary64 arithmetic.

* `takeDigits` — the digits that the significand takes
* `scaleBy?` — the significand times a power of ten
* `number` — a number, from its sign or first digit on
-/

namespace JmesPath.Json.Reader

def digitValue (c : Char) : Nat := c.toNat - 48

/-- Digits added to a number: the number, how many digits there were, and the text left. -/
structure Taken where
  number : Nat
  count : Nat
  rest : List Char

/-- Adds digits to a number while the result stays below a bound; what is left starts
    with a digit only if that digit is one too many. -/
def takeDigits (bound : Nat) : (n : Nat) → List Char → Taken
  | n, [] => ⟨n, 0, []⟩
  | n, c :: cs =>
    let next := n * 10 + digitValue c
    if c.isDigit && next < bound then
      let more := takeDigits bound next cs
      { more with count := more.count + 1 }
    else ⟨n, 0, c :: cs⟩

theorem takeDigits_length_le (bound n : Nat) (cs : List Char) :
    (takeDigits bound n cs).rest.length ≤ cs.length := by
  induction cs generalizing n with
  | nil => simp [takeDigits]
  | cons c cs ih =>
    simp only [takeDigits]
    split
    · exact Nat.le_succ_of_le (ih _)
    · exact Nat.le_refl _

def skipDigits (s : List Char) : List Char := s.dropWhile Char.isDigit

theorem skipDigits_length_le (s : List Char) : (skipDigits s).length ≤ s.length :=
  (List.dropWhile_sublist _).length_le

def powerOfTen (n : Nat) : Binary64 := .ofRatio false (Nat.pow 10 n) 1

/-- A number times ten to a power.  Powers below `10 ^ -308` are taken in steps.  There
    is no answer if the result is too large. -/
def scaleBy? (x : Binary64) (power : Int) : Option Binary64 :=
  if power < -308 then
    if x.isZero then some x else scaleBy? (x.div (powerOfTen 308)) (power + 308)
  else if power < 0 then some (x.div (powerOfTen (-power).toNat))
  else if power ≤ 308 then
    let y := x.mul (powerOfTen power.toNat)
    if y.isInfinite then none else some y
  else if x.isZero then some x else none
termination_by (-power).toNat
decreasing_by omega

/-- A significand with its power of ten, and whether it was written as an integer. -/
structure Significand where
  digits : Nat
  power : Int
  whole : Bool

/-- The number of a significand, read up to `rest`. -/
def Significand.number (negative : Bool) (f : Significand) (rest : List Char) :
    Reading Number :=
  if f.whole then
    if !negative then .ok (.integer f.digits)
    -- No integer is minus zero, or lies below the 64 bits with a sign.
    else if f.digits = 0 ∨ -(f.digits : Int) < Int64.minValue.toInt then
      .ok (.float (Binary64.ofRatio false f.digits 1).neg)
    else .ok (.integer (-(f.digits : Int)))
  else
    match scaleBy? (.ofRatio false f.digits 1) f.power with
    | some x => .ok (.float (if negative then x.neg else x))
    | none => failBefore .numberOutOfRange rest

/-- The digits of an integer part: one zero, or digits that do not start with one. -/
def wholePart (s : List Char) : Reading (Rest Char s.length Significand) :=
  match s with
  | [] => failAtEnd .endInValue
  | '0' :: cs =>
    if (cs.head?.any Char.isDigit) then failAt .invalidNumber cs
    else .ok (.leaving ⟨0, 0, true⟩ cs)
  | c :: cs =>
    if c.isDigit then
      let taken := takeDigits UInt64.size (digitValue c) cs
      let dropped := (taken.rest.takeWhile Char.isDigit).length
      .ok ⟨⟨taken.number, dropped, dropped == 0⟩, skipDigits taken.rest,
        Nat.lt_succ_of_le (Nat.le_trans (skipDigits_length_le _) (takeDigits_length_le _ _ _))⟩
    else failAt .invalidNumber (c :: cs)

/-- The digits behind a point, added to the integer part. -/
def fractionPart (f : Significand) (s : List Char) :
    Reading (Rest Char (s.length + 1) Significand) :=
  match s with
  | '.' :: cs =>
    if cs.isEmpty then failAtEnd .endInValue
    else if !(cs.head?.any Char.isDigit) then failAt .invalidNumber cs
    else
      let taken := takeDigits UInt64.size f.digits cs
      .ok ⟨⟨taken.number, f.power - taken.count, false⟩, skipDigits taken.rest,
        Nat.lt_succ_of_le (Nat.le_succ_of_le
          (Nat.le_trans (skipDigits_length_le _) (takeDigits_length_le _ _ _)))⟩
  | s => .ok (.leaving f s)

/-- The sign of an exponent, which may be missing. -/
def exponentSign : List Char → Bool × List Char
  | '+' :: cs => (false, cs)
  | '-' :: cs => (true, cs)
  | cs => (false, cs)

theorem exponentSign_length_le (s : List Char) : (exponentSign s).2.length ≤ s.length := by
  unfold exponentSign
  split <;> simp

/-- The digits of an exponent.  One of more than 31 bits makes the number zero or puts
    it out of range at once. -/
def exponentDigits (f : Significand) (negative : Bool) (s : List Char) :
    Reading (Rest Char s.length Significand) :=
  match s with
  | [] => failAtEnd .endInValue
  | c :: cs =>
    if !c.isDigit then failAt .invalidNumber (c :: cs)
    else
      let taken := takeDigits (1 <<< 31) (digitValue c) cs
      if taken.rest.head?.any Char.isDigit then
        -- Zero stays zero, whatever power of ten it is multiplied by.
        if f.digits ≠ 0 ∧ !negative then failBefore .numberOutOfRange (taken.rest.drop 1)
        else .ok ⟨⟨0, 0, false⟩, skipDigits taken.rest, Nat.lt_succ_of_le
          (Nat.le_trans (skipDigits_length_le _) (takeDigits_length_le _ _ _))⟩
      else
        let exponent : Int := if negative then -(taken.number : Int) else taken.number
        .ok ⟨⟨f.digits, f.power + exponent, false⟩, taken.rest,
          Nat.lt_succ_of_le (takeDigits_length_le _ _ _)⟩

def exponentPart (f : Significand) (s : List Char) :
    Reading (Rest Char (s.length + 1) Significand) :=
  match s with
  | [] => .ok (.leaving f [])
  | c :: cs =>
    if c == 'e' || c == 'E' then
      let signed := exponentSign cs
      match exponentDigits f signed.1 signed.2 with
      | .ok r => .ok (r.widen (Nat.le_trans (exponentSign_length_le cs)
          (Nat.le_succ_of_le (Nat.le_succ _))))
      | .error e => .error e
    else .ok (.leaving f (c :: cs))

def unsigned (negative : Bool) (s : List Char) : Reading (Rest Char s.length Number) := do
  let whole ← wholePart s
  let fraction ← fractionPart whole.value whole.rest
  let all ← exponentPart fraction.value fraction.rest
  let n ← all.value.number negative all.rest
  .ok (whole.resumed (fraction.resumed (all.map fun _ => n)))

/-- A number, from its sign or first digit on. -/
def number (s : List Char) : Reading (Rest Char s.length Number) :=
  match s with
  | '-' :: cs => do
    let n ← unsigned true cs
    .ok n.succ
  | s => unsigned false s

end JmesPath.Json.Reader
