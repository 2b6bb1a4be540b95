/-! # Bracketed text

JSON text is laid out from a tree whose leaves are finished pieces of text.

* `Tree` — leaves, bracketed lists, braced records
* `Tree.compact` — everything on one line, without a space
* `Tree.pretty` — one entry a line, two spaces deeper at each level
-/

namespace JmesPath

/-- Text with brackets around lists and braces around records. -/
inductive Tree
  | leaf (text : List Char)
  | list (items : List Tree)
  | record (members : List (List Char × Tree))

namespace Tree

mutual
def compact : Tree → List Char
  | .leaf text => text
  | .list items => '[' :: compactItems items ++ [']']
  | .record members => '{' :: compactMembers members ++ ['}']

def compactItems : List Tree → List Char
  | [] => []
  | [t] => compact t
  | t :: ts => compact t ++ ',' :: compactItems ts

/-- Members with commas between them, each with its key in front of a colon. -/
def compactMembers : List (List Char × Tree) → List Char
  | [] => []
  | [(k, t)] => k ++ ':' :: compact t
  | (k, t) :: ts => k ++ ':' :: compact t ++ ',' :: compactMembers ts
end

def margin (level : Nat) : List Char := List.replicate (2 * level) ' '

mutual
/-- The tree over several lines; its own first line is at the given level. -/
def prettyAt (level : Nat) : Tree → List Char
  | .leaf text => text
  | .list [] => ['[', ']']
  | .list (t :: ts) =>
    '[' :: '\n' :: prettyItems level (t :: ts) ++ '\n' :: margin level ++ [']']
  | .record [] => ['{', '}']
  | .record (m :: ms) =>
    '{' :: '\n' :: prettyMembers level (m :: ms) ++ '\n' :: margin level ++ ['}']

/-- Items on lines of their own, one level deeper, with commas between them. -/
def prettyItems (level : Nat) : List Tree → List Char
  | [] => []
  | [t] => margin (level + 1) ++ prettyAt (level + 1) t
  | t :: ts => margin (level + 1) ++ prettyAt (level + 1) t ++ ',' :: '\n' :: prettyItems level ts

/-- Members on lines of their own, one level deeper, with commas between them. -/
def prettyMembers (level : Nat) : List (List Char × Tree) → List Char
  | [] => []
  | [(k, t)] => margin (level + 1) ++ k ++ ':' :: ' ' :: prettyAt (level + 1) t
  | (k, t) :: ts =>
    margin (level + 1) ++ k ++ ':' :: ' ' :: prettyAt (level + 1) t ++
      ',' :: '\n' :: prettyMembers level ts
end

def pretty (t : Tree) : List Char := prettyAt 0 t

end Tree

end JmesPath
