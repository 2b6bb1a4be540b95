import JmesPath.Value.Equality
import JmesPath.Value.Basic

/-! # Comparing values

* `compareText` — the order of texts, by code points
* `Value.compare?` — the order of two numbers or two strings
* `Comparison.apply` — the answer of a comparison operator
-/

namespace JmesPath

/-- The order of texts: that of the first code points that differ, or of the lengths. -/
def compareText : List Char → List Char → Ordering
  | [], [] => .eq
  | [], _ :: _ => .lt
  | _ :: _, [] => .gt
  | a :: as, b :: bs => (compare a.toNat b.toNat).then (compareText as bs)

/-- The order of two numbers or two strings.  There is none between other values, and
    none with a not-a-number. -/
def Value.compare? : Value → Value → Option Ordering
  | .number a, .number b => a.compare? b
  | .string a, .string b => some (compareText a.toList b.toList)
  | _, _ => none

def Comparison.holds : Comparison → Ordering → Bool
  | .equal, o => o.isEq
  | .notEqual, o => !o.isEq
  | .less, o => o.isLT
  | .lessEqual, o => o.isLE
  | .greater, o => o.isGT
  | .greaterEqual, o => o.isGE

/-- The answer of a comparison.  All values can be equal or not; the ordering operators
    answer `null` where there is no order. -/
def Comparison.apply (op : Comparison) (a b : Value) : Value :=
  match op with
  | .equal => .boolean (a.equal b)
  | .notEqual => .boolean !(a.equal b)
  | op =>
    match a.compare? b with
    | some o => .boolean (op.holds o)
    | none => .null

end JmesPath
