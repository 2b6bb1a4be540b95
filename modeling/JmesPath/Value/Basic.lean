import JmesPath.Expr.Basic

/-! # Types of values

* `Value.Kind` — the seven types, with their names
* `Value.kind` — the type of a value
* `Value.isFalseLike` — the values that conditions reject
* `Value.array?`, `Value.string?` and others — the parts of a value of one type
-/

namespace JmesPath

/-- The types of values. -/
inductive Value.Kind
  | null
  | boolean
  | number
  | string
  | array
  | object
  | reference
  deriving DecidableEq

def Value.Kind.name : Value.Kind → String
  | .null => "null"
  | .boolean => "boolean"
  | .number => "number"
  | .string => "string"
  | .array => "array"
  | .object => "object"
  | .reference => "expref"

namespace Value

def kind : Value → Kind
  | .null => .null
  | .boolean _ => .boolean
  | .number _ => .number
  | .string _ => .string
  | .array _ => .array
  | .object _ => .object
  | .reference _ => .reference

/-- The values that conditions reject: `null`, `false`, and the empty string, array
    and object.  Every number holds, zero too. -/
def isFalseLike : Value → Bool
  | .null => true
  | .boolean b => !b
  | .string s => s.isEmpty
  | .array items => items.isEmpty
  | .object members => members.isEmpty
  | .number _ => false
  | .reference _ => false

/-- Whether a value is `null`. -/
def isNull : Value → Bool
  | .null => true
  | _ => false

/-- Whether a value is a not-a-number. -/
def isNaN : Value → Bool
  | .number n => n.isNaN
  | _ => false

def number? : Value → Option Binary64
  | .number n => some n
  | _ => none

def string? : Value → Option String
  | .string s => some s
  | _ => none

def array? : Value → Option (List Value)
  | .array items => some items
  | _ => none

def object? : Value → Option (List (String × Value))
  | .object members => some members
  | _ => none

def reference? : Value → Option Expr
  | .reference e => some e
  | _ => none

end Value

end JmesPath
