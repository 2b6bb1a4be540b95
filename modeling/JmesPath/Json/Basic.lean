import JmesPath.Expr.Basic
import JmesPath.Members

/-! # JSON documents

A JSON document keeps apart the numbers that were written as integers and all others.

* `Json`, `Json.Number` — documents and their numbers
* `Value.ofJson` — the data that a document holds
* `Value.toJson` — the document that holds a value; whole numbers become integers
-/

namespace JmesPath

/-- A number of a document: an integer of at most 64 bits, or a finite number. -/
inductive Json.Number
  | integer (i : Int)
  | float (x : Binary64)
  deriving DecidableEq

/-- A JSON document.  Members keep their order. -/
inductive Json
  | null
  | boolean (b : Bool)
  | number (n : Json.Number)
  | string (s : String)
  | array (items : List Json)
  | object (members : List (String × Json))

instance : Inhabited Json := ⟨.null⟩

def Json.Number.toBinary64 : Json.Number → Binary64
  | .integer i => .ofInt i
  | .float x => x

/-- The document's form of a number.  A whole number that 64 bits hold with a sign is
    an integer; the bound `2 ^ 63` itself counts as the largest such integer.  What
    is not finite has no form. -/
def Json.ofNumber (x : Binary64) : Json :=
  match x.integer? with
  | some i =>
    if i.natAbs ≤ 1 <<< 63 then .number (.integer (min i Int64.maxValue.toInt))
    else .number (.float x)
  | none => if x.isFinite then .number (.float x) else .null

namespace Value

mutual
def ofJson : Json → Value
  | .null => .null
  | .boolean b => .boolean b
  | .number n => .number n.toBinary64
  | .string s => .string s
  | .array items => .array (ofJsonItems items)
  | .object members => .object (ofJsonMembers members)

def ofJsonItems : List Json → List Value
  | [] => []
  | j :: js => ofJson j :: ofJsonItems js

def ofJsonMembers : List (String × Json) → List (String × Value)
  | [] => []
  | (k, j) :: js => (k, ofJson j) :: ofJsonMembers js
end

mutual
/-- The document that holds a value; a reference has no form and becomes `null`. -/
def toJson : Value → Json
  | .null => .null
  | .boolean b => .boolean b
  | .number n => Json.ofNumber n
  | .string s => .string s
  | .array items => .array (toJsonItems items)
  | .object members => .object (toJsonMembers members)
  | .reference _ => .null

def toJsonItems : List Value → List Json
  | [] => []
  | v :: vs => toJson v :: toJsonItems vs

def toJsonMembers : List (String × Value) → List (String × Json)
  | [] => []
  | (k, v) :: vs => (k, toJson v) :: toJsonMembers vs
end

end Value

end JmesPath
