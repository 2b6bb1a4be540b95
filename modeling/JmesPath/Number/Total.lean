import JmesPath.Number.Binary64

/-! # Totals and means

A total of numbers such as `0.1` and `0.2` is worked out in decimals, so that it is
`0.3`, as long as every number survives the way through a decimal unchanged.

* `Decimal96` — a decimal with a coefficient of at most 96 bits and at most 28
  places after the point
* `Decimal96.ofBinary64?`, `toBinary64` — the way there and back
* `Decimal96.add?`, `divNat` — sum and quotient, rounded half to even when 96 bits
  do not hold all places; the places of a quotient are part of the rule, because the
  way back to binary rounds at the last one
* `Binary64.total`, `Binary64.mean` — decimal if possible, otherwise binary
-/

namespace JmesPath

/-- The decimal `coefficient / 10 ^ scale`, with a sign. -/
structure Decimal96 where
  negative : Bool
  coefficient : Nat
  scale : Nat
  deriving DecidableEq

namespace Decimal96

/-- Coefficients lie below this bound. -/
def bound : Nat := 1 <<< 96

def maxScale : Nat := 28

def zero : Decimal96 := ⟨false, 0, 0⟩

/-! ## From binary -/

/-- A coefficient without its last digit, rounded half up. -/
def dropDigit (c : Nat) : Nat :=
  c / 10 + if 5 ≤ c % 10 then 1 else 0

/-- Turns `c / 2 ^ halves` into a coefficient and places: an odd coefficient is
    multiplied by five for one place more while 96 bits hold it, another one is halved. -/
def absorbHalves : (halves : Nat) → (c : Nat) → Nat × Nat
  | 0, c => (c, 0)
  | k + 1, c =>
    if c % 2 = 1 ∧ c * 5 < bound then
      let (d, places) := absorbHalves k (c * 5)
      (d, places + 1)
    else absorbHalves k (c / 2)

/-- Drops so many digits one by one; nothing is left of a single digit. -/
def lower : (times : Nat) → (c : Nat) → Nat
  | 0, c => c
  | k + 1, c => if c / 10 = 0 then 0 else lower k (dropDigit c)

/-- Drops digits after the point until 52 bits hold the coefficient: more are not
    certain in a binary number. -/
def dropUncertain : (scale : Nat) → (c : Nat) → Nat × Nat
  | 0, c => (c, 0)
  | s + 1, c => if 1 <<< 52 ≤ c then dropUncertain s (dropDigit c) else (c, s + 1)

def dropZeros : (scale : Nat) → (c : Nat) → Nat × Nat
  | 0, c => (c, 0)
  | s + 1, c => if c % 10 = 0 then dropZeros s (c / 10) else (c, s + 1)

/-- A coefficient and its scale without places that are too many, uncertain or zero. -/
def shorten (c places : Nat) : Nat × Nat :=
  let kept := min places maxScale
  let (c, scale) := dropUncertain kept (lower (places - kept) c)
  dropZeros scale c

/-- The decimal near a binary number, if 96 bits hold its whole part. -/
def ofBinary64? : Binary64 → Option Decimal96
  | .finite negative m _ =>
    if m = 0 then some ⟨negative, 0, 0⟩
    else
      let shift := m.log2 - 52
      let significand := m >>> shift
      if 1074 ≤ shift then
        -- The last bit is worth one or more, so there are no places.
        let c := significand <<< (shift - 1074)
        if c < bound then some ⟨negative, c, 0⟩ else none
      else
        let (c, places) := absorbHalves (1074 - shift) significand
        let (c, scale) := shorten c places
        some ⟨negative && c != 0, c, scale⟩
  | _ => none

/-! ## To binary -/

/-- The binary number for a decimal: whole part and fraction are rounded and added
    as binary numbers, and the sum is rounded to the decimal's places. -/
def toBinary64 (d : Decimal96) : Binary64 :=
  let power := Nat.pow 10 d.scale
  if d.scale = 0 then .ofInt (Binary64.signed d.negative d.coefficient)
  else
    let places := Binary64.ofRatio false power 1
    let whole := Binary64.ofRatio false (d.coefficient / power) 1
    let fraction := (Binary64.ofRatio false (d.coefficient % power) 1).div places
    -- The sum of the two parts may be off in the last bits; its places are not.
    let x := if fraction.isZero then whole
      else (((whole.add fraction).mul places).round).div places
    if d.negative then x.neg else x

/-! ## Arithmetic -/

/-- The most places of `n / 10 ^ scale` that 96 bits hold, rounded half to even. -/
def fit? (n scale : Nat) : Option (Nat × Nat) :=
  (List.range (scale + 1)).findSome? fun dropped =>
    let c := halfEven n (Nat.pow 10 dropped)
    if c < bound then some (c, scale - dropped) else none

/-- The signed coefficient at a scale that is not smaller. -/
def signedAt (d : Decimal96) (scale : Nat) : Int :=
  Binary64.signed d.negative (d.coefficient * Nat.pow 10 (scale - d.scale))

/-- The sum.  An exact zero is positive. -/
def add? (a b : Decimal96) : Option Decimal96 :=
  -- A zero does not bring its places along.
  if a.coefficient = 0 then some b
  else if b.coefficient = 0 then some a
  else
    let scale := max a.scale b.scale
    let total := a.signedAt scale + b.signedAt scale
    (fit? total.natAbs scale).map fun (c, scale) => ⟨decide (total < 0), c, scale⟩

/-- How many digits, at most `most`, can be appended to a coefficient that 96 bits hold
    afterwards. -/
def room (c : Nat) : (most : Nat) → Nat
  | 0 => 0
  | k + 1 => if c * Nat.pow 10 (k + 1) < bound then k + 1 else room c k

theorem room_le (c most : Nat) : room c most ≤ most := by
  induction most with
  | zero => exact Nat.le_refl _
  | succ k ih =>
    unfold room
    split
    · exact Nat.le_refl _
    · exact Nat.le_succ_of_le ih

/-- Goes on with a division by `n`: places are appended to the quotient, up to nine at a
    time, until nothing remains or there is no room for more.  The result is the quotient,
    the remainder and the scale. -/
def divide (n q r scale : Nat) : Nat × Nat × Nat :=
  let places := room q (min 9 (maxScale - scale))
  if _h : r = 0 ∨ places = 0 then (q, r, scale)
  else
    let next := r * Nat.pow 10 places
    divide n (q * Nat.pow 10 places + next / n) (next % n) (scale + places)
termination_by maxScale - scale
decreasing_by
  have := room_le q (min 9 (maxScale - scale))
  omega

/-- Drops eight zeros at the end of the places as long as the lowest 32 bits of the
    coefficient are zero, too. -/
def dropEights (c scale : Nat) : Nat × Nat :=
  if 8 ≤ scale ∧ c % UInt32.size = 0 ∧ c % Nat.pow 10 8 = 0 then
    dropEights (c / Nat.pow 10 8) (scale - 8)
  else (c, scale)
termination_by scale

/-- Drops so many zeros at the end of the places if all of them are there. -/
def dropRun (count : Nat) (d : Nat × Nat) : Nat × Nat :=
  if count ≤ d.2 ∧ d.1 % Nat.pow 10 count = 0 then (d.1 / Nat.pow 10 count, d.2 - count)
  else d

/-- The quotient by a positive number, rounded half to even at the last place that fits.
    A division that is not exact from the start leaves zeros at the end of the places;
    they are dropped in one run of four, one of two and a single one, so that some may
    stay. -/
def divNat (a : Decimal96) (n : Nat) : Decimal96 :=
  if a.coefficient = 0 then zero
  else if a.coefficient % n = 0 then { a with coefficient := a.coefficient / n }
  else
    let (q, r, scale) := divide n (a.coefficient / n) (a.coefficient % n) a.scale
    let c := halfEven (q * n + r) n
    -- Rounding up can carry past 96 bits; then one place less is kept.
    let (c, scale) :=
      if c < bound then (c, scale) else (halfEven (q * n + r) (10 * n), scale - 1)
    let (c, scale) := dropRun 1 (dropRun 2 (dropRun 4 (dropEights c scale)))
    ⟨a.negative && c != 0, c, scale⟩

/-- The decimal of a number that the way back returns unchanged. -/
def exactly? (x : Binary64) : Option Decimal96 :=
  (ofBinary64? x).filter fun d => d.toBinary64.equal x

/-- The decimal total of numbers that all have an exact decimal. -/
def total? (xs : List Binary64) : Option Decimal96 := do
  (← xs.mapM exactly?).foldlM add? zero

end Decimal96

namespace Binary64

/-- The numbers added from left to right. -/
def plainTotal (xs : List Binary64) : Binary64 :=
  xs.foldl add (zero true)

/-- The total of numbers, decimal if all of them have an exact decimal. -/
def total (xs : List Binary64) : Binary64 :=
  match Decimal96.total? xs with
  | some d => d.toBinary64
  | none => plainTotal xs

/-- The mean of numbers, decimal if all of them have an exact decimal. -/
def mean (xs : List Binary64) : Binary64 :=
  match Decimal96.total? xs with
  | some d => (d.divNat xs.length).toBinary64
  | none => (plainTotal xs).div (ofRatio false xs.length 1)

end Binary64

end JmesPath
