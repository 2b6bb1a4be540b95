import JmesPath.Value.Basic

/-! # Parameters of functions

* `ArgType` — the types that a parameter can ask for
* `ArgType.accepts` — whether a value has a type
* `Param` — a parameter: its types, and whether it takes several arguments
-/

namespace JmesPath

/-- The types that a parameter can ask for.  The last two look at the elements of an
    array, too. -/
inductive ArgType
  | any
  | number
  | string
  | boolean
  | array
  | object
  | null
  | reference
  | arrayOfNumber
  | arrayOfString
  deriving DecidableEq

namespace ArgType

def name : ArgType → String
  | .any => "any"
  | .number => "number"
  | .string => "string"
  | .boolean => "boolean"
  | .array => "array"
  | .object => "object"
  | .null => "null"
  | .reference => "expref"
  | .arrayOfNumber => "array[number]"
  | .arrayOfString => "array[string]"

def accepts : ArgType → Value → Bool
  | .any, _ => true
  | .number, .number _ => true
  | .string, .string _ => true
  | .boolean, .boolean _ => true
  | .array, .array _ => true
  | .object, .object _ => true
  | .null, .null => true
  | .reference, .reference _ => true
  | .arrayOfNumber, .array items => items.all fun v => v.kind == .number
  | .arrayOfString, .array items => items.all fun v => v.kind == .string
  | _, _ => false

def alternatives (types : List ArgType) : String :=
  "|".intercalate (types.map name)

end ArgType

/-- A parameter: it takes an argument of one of its types.  The last parameter of a
    function can take one or more. -/
structure Param where
  types : List ArgType
  variadic : Bool
  deriving DecidableEq

namespace Param

def accepts (p : Param) (v : Value) : Bool := p.types.any fun t => t.accepts v

def text (p : Param) : String :=
  ArgType.alternatives p.types ++ if p.variadic then "..." else ""

end Param

end JmesPath
