import JmesPath.Eval.Outcome

/-! # Functions

* `Function` — a name, parameters and a body
* `Function.check` — the checks on arguments: first their number, then one by one
  their types
* `Function.call` — the body on arguments that pass
-/

namespace JmesPath

/-- What a function does with its arguments. -/
abbrev Body := Visit → List Value → Outcome Value

/-- What a function does that evaluates no reference. -/
abbrev PlainBody := List Value → Outcome Value

/-- A function.  Its body is run on arguments that fit its parameters. -/
structure Function where
  name : String
  params : List Param
  summary : String
  body : Body

namespace Function

def signature (f : Function) : String :=
  let params := ", ".intercalate (f.params.map Param.text)
  s!"{f.name}({params})"

/-- Whether the last parameter takes several arguments. -/
def isVariadic (params : List Param) : Bool := params.getLast?.any Param.variadic

def countFits (params : List Param) (count : Nat) : Bool :=
  if isVariadic params then params.length ≤ count else count == params.length

/-- The parameter for the argument at a place; the last one is for all further
    arguments. -/
def paramAt? (params : List Param) (i : Nat) : Option Param :=
  (params[i]?).or params.getLast?

/-- The first argument that does not fit its parameter, from place `i` on. -/
def firstMisfit? (name : String) (params : List Param) :
    (i : Nat) → List Value → Option EvalError
  | _, [] => none
  | i, arg :: args =>
    match paramAt? params i with
    | none => none
    | some p =>
      if p.accepts arg then firstMisfit? name params (i + 1) args
      else some (.argumentType name (i + 1) p.types arg.kind)

/-- What is wrong with arguments: their number, or else the type of one of them. -/
def check (name : String) (params : List Param) (args : List Value) : Option EvalError :=
  if countFits params args.length then firstMisfit? name params 0 args
  else some (.arity name params.length (isVariadic params) args.length)

/-- Runs a function on arguments that fit. -/
def call (f : Function) (visit : Visit) (args : List Value) : Outcome Value :=
  match check f.name f.params args with
  | some e => .failed e
  | none => f.body visit args

end Function

end JmesPath
