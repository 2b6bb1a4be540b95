import JmesPath.Function.Param

/-! # Outcomes of an evaluation

* `EvalError` — what can go wrong, with its wording
* `Outcome` — a result, an error, or no answer within the number of nested visits
  allowed
-/

namespace JmesPath

/-- What can go wrong in an evaluation. -/
inductive EvalError
  | zeroSliceStep
  | unknownFunction (name : String)
  | arity (function : String) (expected : Nat) (atLeast : Bool) (received : Nat)
  | argumentType (function : String) (position : Nat) (expected : List ArgType)
      (actual : Value.Kind)
  | keyType (function : String) (expected : List Value.Kind) (actual : Value.Kind)
  /-- A sort meets keys that are in no order.  This is not handed back as the others are: the
      program is stopped. -/
  | unordered (function : String)
  deriving DecidableEq

def EvalError.message : EvalError → String
  | .zeroSliceStep => "invalid slice, step cannot be 0"
  | .unknownFunction name => s!"unknown function: {name}()"
  | .arity function expected atLeast received =>
    let bound := if atLeast then "at least " else ""
    let plural := if expected = 1 then "" else "s"
    s!"{function}() takes {bound}{expected} argument{plural} but received {received}"
  | .argumentType function position expected actual =>
    let types := ArgType.alternatives expected
    s!"{function}() expected argument {position} to be type {types} but received type " ++
      s!"{actual.name} instead"
  | .keyType function expected actual =>
    let kinds := "|".intercalate (expected.map Value.Kind.name)
    s!"{function}() expected keys of type {kinds} but received type {actual.name}"
  | .unordered _ =>
    "user-provided comparison function does not correctly implement a total order"

/-- The outcome of an evaluation.  It is unfinished if more visits would have had to be
    open at once than were allowed. -/
inductive Outcome (α : Type)
  | done (a : α)
  | failed (e : EvalError)
  | unfinished
  deriving DecidableEq

namespace Outcome

variable {α β : Type}

def bind : Outcome α → (α → Outcome β) → Outcome β
  | .done a, f => f a
  | .failed e, _ => .failed e
  | .unfinished, _ => .unfinished

instance : Monad Outcome where
  pure := .done
  bind := bind

@[simp] theorem pure_eq (a : α) : (pure a : Outcome α) = .done a := rfl

@[simp] theorem done_bind (a : α) (f : α → Outcome β) : (Outcome.done a >>= f) = f a := rfl

@[simp] theorem failed_bind (e : EvalError) (f : α → Outcome β) :
    (Outcome.failed e >>= f) = .failed e := rfl

@[simp] theorem unfinished_bind (f : α → Outcome β) :
    (Outcome.unfinished >>= f) = .unfinished := rfl

theorem bind_eq_done_iff {x : Outcome α} {f : α → Outcome β} {b : β} :
    (x >>= f) = .done b ↔ ∃ a, x = .done a ∧ f a = .done b := by
  cases x with
  | done a => simp
  | failed e => simp
  | unfinished => simp

instance : LawfulMonad Outcome := LawfulMonad.mk' Outcome
  (fun x => by cases x <;> rfl) (fun _ _ => rfl) (fun x _ _ => by cases x <;> rfl)

end Outcome

/-- Evaluates an expression on a value; functions that take references use it. -/
abbrev Visit := Expr → Value → Outcome Value

end JmesPath
