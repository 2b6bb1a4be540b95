import JmesPath.Expr.Basic

/-! # Indices and slices of arrays

The bounds and the step of a slice are anything that 64 bits with a sign hold, and so is
every number on the way to its elements.

* `index?` — the element at an index, counted from the end if negative
* `IsInt64`, `saturatingAdd`, `checkedAdd?` — sums within 64 bits
* `Slice` — effective bounds of a slice; `Slice.resolve` works them out
* `Slice.positions` — the positions that a slice visits
* `slice?` — the elements at those positions, unless the step is zero
-/

namespace JmesPath

/-- The element at an index.  A negative index counts from the end. -/
def index? (items : List Value) (i : Int) : Option Value :=
  if i < 0 then
    if 0 ≤ items.length + i then items[(items.length + i).toNat]? else none
  else items[i.toNat]?

/-! ## Sums within 64 bits -/

/-- The integers that 64 bits with a sign hold. -/
def IsInt64 (i : Int) : Prop := Int64.minValue.toInt ≤ i ∧ i ≤ Int64.maxValue.toInt

instance (i : Int) : Decidable (IsInt64 i) := inferInstanceAs (Decidable (_ ∧ _))

/-- The sum; one that 64 bits do not hold is moved to the nearer end of what they hold. -/
def saturatingAdd (a b : Int) : Int :=
  if a + b < Int64.minValue.toInt then Int64.minValue.toInt
  else if Int64.maxValue.toInt < a + b then Int64.maxValue.toInt
  else a + b

/-- The sum, if 64 bits hold it. -/
def checkedAdd? (a b : Int) : Option Int := if IsInt64 (a + b) then some (a + b) else none

/-! ## Slices -/

/-- Where a slice starts, which bound it stays in front of, and how far it steps. -/
structure Slice where
  start : Int
  stop : Int
  step : Int
  deriving DecidableEq

namespace Slice

/-- A given bound for an array of a length: a negative one counts from the end, and one
    outside the array is moved to its edge. -/
def clamp (length bound : Int) (descending : Bool) : Int :=
  if bound < 0 then
    let wrapped := saturatingAdd bound length
    -- A descending slice can stop in front of the first element.
    if 0 ≤ wrapped then wrapped else if descending then -1 else 0
  else if length ≤ bound then (if descending then length - 1 else length)
  else bound

/-- The effective bounds for an array of a length; `step` is not zero. -/
def resolve (length : Nat) (start stop : Option Int) (step : Int) : Slice :=
  let descending := decide (step < 0)
  let given (bound : Option Int) := bound.map fun i => clamp length i descending
  { start := (given start).getD (if descending then length - 1 else 0)
    stop := (given stop).getD (if descending then -1 else length)
    step }

/-- Whether a position is in front of the bound, in the direction of the steps. -/
def Before (s : Slice) (i : Int) : Prop :=
  (0 < s.step ∧ i < s.stop) ∨ (s.step < 0 ∧ s.stop < i)

instance (s : Slice) (i : Int) : Decidable (s.Before i) := inferInstanceAs (Decidable (_ ∨ _))

/-- How far a position is in front of the bound. -/
def distance (s : Slice) (i : Int) : Nat :=
  if 0 < s.step then (s.stop - i).toNat else (i - s.stop).toNat

theorem distance_step_lt {s : Slice} {i : Int} (h : s.Before i) :
    s.distance (i + s.step) < s.distance i := by
  unfold Before at h
  unfold distance
  split <;> omega

/-- The positions in front of the bound, in steps from a position on.  A step to what 64
    bits do not hold is the end. -/
def positionsFrom (s : Slice) (i : Int) : List Int :=
  if _hbefore : s.Before i then
    match _hnext : checkedAdd? i s.step with
    | some next => i :: s.positionsFrom next
    | none => [i]
  else []
termination_by s.distance i
decreasing_by
  obtain ⟨-, rfl⟩ := Option.ite_some_none_eq_some.1 _hnext
  exact distance_step_lt _hbefore

/-- The positions that the slice visits. -/
def positions (s : Slice) : List Int := s.positionsFrom s.start

end Slice

/-- The element at a position, if there is one. -/
def itemAt? (items : List Value) (i : Int) : Option Value :=
  if 0 ≤ i then items[i.toNat]? else none

/-- The elements of a slice, or nothing if the step is zero. -/
def slice? (items : List Value) (start stop step : Option Int) : Option (List Value) :=
  let step := step.getD 1
  if step = 0 then none
  else some ((Slice.resolve items.length start stop step).positions.filterMap (itemAt? items))

end JmesPath
