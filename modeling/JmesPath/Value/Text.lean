import JmesPath.Expr.Basic
import JmesPath.Number.Numeral
import JmesPath.Text.Class
import JmesPath.Text.Tree

/-! # JSON text of values

* `escapeChar`, `stringLiteral` — strings between double quotes
* `Value.tree` — the pieces of a value's text
* `Value.compact`, `Value.pretty` — the text, on one line or indented
-/

namespace JmesPath

/-- The written form of a character in a JSON string.  Quotes, backslashes and control
    characters are escaped. -/
def escapeChar (c : Char) : List Char :=
  match c with
  | '"' => ['\\', '"']
  | '\\' => ['\\', '\\']
  | '\n' => ['\\', 'n']
  | '\r' => ['\\', 'r']
  | '\t' => ['\\', 't']
  | c =>
    if CharClass.isControl c then
      ['\\', 'u', '0', '0', (c.toNat / 16).digitChar, (c.toNat % 16).digitChar]
    else [c]

def stringLiteral (s : String) : List Char :=
  '"' :: s.toList.flatMap escapeChar ++ ['"']

/-- The JSON text of a number; `null` for what is not finite. -/
def Binary64.jsonText (x : Binary64) : List Char :=
  x.numeral?.getD "null".toList

namespace Value

mutual
/-- The pieces of a value's JSON text; a reference is written `null`. -/
def tree : Value → Tree
  | .null => .leaf "null".toList
  | .boolean true => .leaf "true".toList
  | .boolean false => .leaf "false".toList
  | .number n => .leaf n.jsonText
  | .string s => .leaf (stringLiteral s)
  | .array items => .list (treeItems items)
  | .object members => .record (treeMembers members)
  | .reference _ => .leaf "null".toList

def treeItems : List Value → List Tree
  | [] => []
  | v :: vs => tree v :: treeItems vs

def treeMembers : List (String × Value) → List (List Char × Tree)
  | [] => []
  | (k, v) :: vs => (stringLiteral k, tree v) :: treeMembers vs
end

def compact (v : Value) : String := String.ofList v.tree.compact

def pretty (v : Value) : String := String.ofList v.tree.pretty

end Value

end JmesPath
