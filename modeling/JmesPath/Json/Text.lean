import JmesPath.Json.Basic
import JmesPath.Value.Text

/-! # Text of JSON documents

* `Json.Number.text` — integers as digits alone, all others with a point or an exponent
* `Json.compact` — the text of a document on one line
-/

namespace JmesPath.Json

/-- The text of a document's number.  A number that is not an integer shows it by a
    point or an exponent. -/
def Number.text : Number → List Char
  | .integer i => integerNumeral i
  | .float x =>
    let digits := x.jsonText
    if x.isFinite && !digits.any (fun c => c == '.' || c == 'e') then digits ++ ['.', '0']
    else digits

mutual
def tree : Json → Tree
  | .null => .leaf "null".toList
  | .boolean true => .leaf "true".toList
  | .boolean false => .leaf "false".toList
  | .number n => .leaf n.text
  | .string s => .leaf (stringLiteral s)
  | .array items => .list (treeItems items)
  | .object members => .record (treeMembers members)

def treeItems : List Json → List Tree
  | [] => []
  | j :: js => tree j :: treeItems js

def treeMembers : List (String × Json) → List (List Char × Tree)
  | [] => []
  | (k, j) :: js => (stringLiteral k, tree j) :: treeMembers js
end

def compact (j : Json) : String := String.ofList j.tree.compact

end JmesPath.Json
