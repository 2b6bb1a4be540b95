import JmesPath.Expr.Basic
import JmesPath.Members

/-! # Equality of values and expressions

Two values are equal if they have the same structure and equal numbers.  The order
of an object's members does not matter: two objects are equal if they have equally
many members and every member of the one is found in the other with an equal value.
References are equal if their trees are, literals in them included.

* `Value.equal`, `Expr.equal` — the two relations, by recursion on the left side
-/

namespace JmesPath

mutual
def Value.equal : Value → Value → Bool
  | .null, .null => true
  | .boolean a, .boolean b => a == b
  | .number a, .number b => a.equal b
  | .string a, .string b => a == b
  | .array xs, .array ys => Value.equalItems xs ys
  | .object xs, .object ys => xs.length == ys.length && Value.membersWithin xs ys
  | .reference a, .reference b => Expr.equal a b
  | _, _ => false

/-- Whether two lists hold equal values at equal places. -/
def Value.equalItems : List Value → List Value → Bool
  | [], [] => true
  | x :: xs, y :: ys => Value.equal x y && Value.equalItems xs ys
  | _, _ => false

/-- Whether each member of the first list is in the second with an equal value. -/
def Value.membersWithin : List (String × Value) → List (String × Value) → Bool
  | [], _ => true
  | (k, x) :: xs, ys =>
    (match Members.get? ys k with
      | some y => Value.equal x y
      | none => false) && Value.membersWithin xs ys

def Expr.equal : Expr → Expr → Bool
  | .field a, .field b => a == b
  | .sub a b, .sub c d => Expr.equal a c && Expr.equal b d
  | .index i, .index j => i == j
  | .slice a b c, .slice d e f => a == d && b == e && c == f
  | .indexed a b, .indexed c d => Expr.equal a c && Expr.equal b d
  | .project a b, .project c d => Expr.equal a c && Expr.equal b d
  | .projectValues a b, .projectValues c d => Expr.equal a c && Expr.equal b d
  | .filter a b c, .filter d e f => Expr.equal a d && Expr.equal b e && Expr.equal c f
  | .compare o a b, .compare p c d => o == p && Expr.equal a c && Expr.equal b d
  | .flatten a, .flatten b => Expr.equal a b
  | .identity, .identity => true
  | .multiList xs, .multiList ys => Expr.equalItems xs ys
  | .multiHash xs, .multiHash ys => Expr.equalMembers xs ys
  | .or a b, .or c d => Expr.equal a c && Expr.equal b d
  | .and a b, .and c d => Expr.equal a c && Expr.equal b d
  | .not a, .not b => Expr.equal a b
  | .literal a, .literal b => Value.equal a b
  | .pipe a b, .pipe c d => Expr.equal a c && Expr.equal b d
  | .current, .current => true
  | .call f xs, .call g ys => f == g && Expr.equalItems xs ys
  | .ref a, .ref b => Expr.equal a b
  | _, _ => false

/-- Whether two lists hold equal trees at equal places. -/
def Expr.equalItems : List Expr → List Expr → Bool
  | [], [] => true
  | x :: xs, y :: ys => Expr.equal x y && Expr.equalItems xs ys
  | _, _ => false

/-- Whether two lists hold equal keys with equal trees at equal places. -/
def Expr.equalMembers : List (String × Expr) → List (String × Expr) → Bool
  | [], [] => true
  | (k, x) :: xs, (l, y) :: ys => k == l && Expr.equal x y && Expr.equalMembers xs ys
  | _, _ => false
end

end JmesPath
