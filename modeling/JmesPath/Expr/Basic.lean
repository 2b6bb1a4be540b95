import JmesPath.Number.Binary64

/-! # Values and expressions

The two types that everything else is about.  They are defined together, because an
expression may hold a literal value and a value may be a reference to an expression.

* `Value` — what a query reads and answers: JSON data and expression references
* `Expr` — the syntax tree of a query
* `Comparison` — the six comparison operators
* `Expr.kind` — the name of a tree's root
-/

namespace JmesPath

/-- The comparison operators. -/
inductive Comparison
  | equal
  | notEqual
  | less
  | lessEqual
  | greater
  | greaterEqual
  deriving DecidableEq

def Comparison.symbol : Comparison → String
  | .equal => "=="
  | .notEqual => "!="
  | .less => "<"
  | .lessEqual => "<="
  | .greater => ">"
  | .greaterEqual => ">="

mutual
/-- JSON data, or a reference to an expression that a function evaluates later.
    An object keeps its members in the order in which their keys first came. -/
inductive Value
  | null
  | boolean (b : Bool)
  | number (n : Binary64)
  | string (s : String)
  | array (items : List Value)
  | object (members : List (String × Value))
  | reference (e : Expr)

/-- The syntax tree of a query. -/
inductive Expr
  /-- A member of an object: `foo`. -/
  | field (name : String)
  /-- The right side on the left side's value: `foo.bar`. -/
  | sub (left right : Expr)
  /-- An element of an array, counted from the end if negative. -/
  | index (i : Int)
  /-- A part of an array: `start:stop:step`. -/
  | slice (start stop step : Option Int)
  /-- An index or a slice of the left side's value: `foo[0]`. -/
  | indexed (left right : Expr)
  /-- The right side on each element of an array: `foo[*].bar`. -/
  | project (left right : Expr)
  /-- The right side on each member of an object: `foo.*.bar`. -/
  | projectValues (left right : Expr)
  /-- The right side on each element that the condition holds for: `foo[?c].bar`. -/
  | filter (left right condition : Expr)
  /-- A comparison of two values: `foo == bar`. -/
  | compare (op : Comparison) (left right : Expr)
  /-- An array with the arrays inside it dissolved, one level deep: `foo[]`. -/
  | flatten (e : Expr)
  /-- The value at hand, where the text names nothing. -/
  | identity
  /-- An array of results: `[a, b]`. -/
  | multiList (items : List Expr)
  /-- An object of results: `{x: a, y: b}`. -/
  | multiHash (members : List (String × Expr))
  /-- The left side, or the right side if the left side is false-like: `a || b`. -/
  | or (left right : Expr)
  /-- The left side if it is false-like, or else the right side: `a && b`. -/
  | and (left right : Expr)
  /-- Whether the operand is false-like: `!a`. -/
  | not (e : Expr)
  /-- A value written in the query. -/
  | literal (v : Value)
  /-- The right side on the left side's value, projections ended: `a | b`. -/
  | pipe (left right : Expr)
  /-- The value at hand: `@`. -/
  | current
  /-- A function call: `sort_by(people, &age)`. -/
  | call (name : String) (args : List Expr)
  /-- An expression kept for later: `&age`. -/
  | ref (e : Expr)
end

instance : Inhabited Value := ⟨.null⟩
instance : Inhabited Expr := ⟨.identity⟩

namespace Expr

def kind : Expr → String
  | .field _ => "Field"
  | .sub .. => "Subexpression"
  | .index _ => "Index"
  | .slice .. => "Slice"
  | .indexed .. => "IndexExpression"
  | .project .. => "Projection"
  | .projectValues .. => "ValueProjection"
  | .filter .. => "FilterProjection"
  | .compare .. => "Comparator"
  | .flatten _ => "Flatten"
  | .identity => "Identity"
  | .multiList _ => "MultiSelectList"
  | .multiHash _ => "MultiSelectHash"
  | .or .. => "OrExpression"
  | .and .. => "AndExpression"
  | .not _ => "NotExpression"
  | .literal _ => "Literal"
  | .pipe .. => "Pipe"
  | .current => "Current"
  | .call .. => "Function"
  | .ref _ => "ExpressionReference"

end Expr

end JmesPath
