import JmesPath.Eval.Outcome

/-! # Arguments of functions

A body takes its arguments apart on its own, whatever its parameters say.  It looks at the
value at a place as one of a type, and complains about a value of another type.

* `mismatch` — the complaint about a value at a place
* `View` — a type, with what values of it hold
* `View.argument`, `View.each` — what the argument at a place holds, and what all values of a
  list hold
-/

namespace JmesPath

/-- The error for a value at a place that is of none of the types that a body expects there. -/
def mismatch {α : Type} (name : String) (place : Nat) (expected : List ArgType) (v : Value) :
    Outcome α :=
  .failed (.argumentType name (place + 1) expected v.kind)

/-- The argument at a place, or `null` if there is none. -/
def argumentAt (args : List Value) (place : Nat) : Value := args.getD place .null

/-- A way to look at values: as values of one type.  Exactly those hold something. -/
structure View (α : Type) where
  type : ArgType
  content? : Value → Option α
  accepts_eq : ∀ v, type.accepts v = (content? v).isSome

namespace View

variable {α : Type}

def number : View Binary64 := ⟨.number, Value.number?, fun v => by cases v <;> rfl⟩

def string : View String := ⟨.string, Value.string?, fun v => by cases v <;> rfl⟩

def array : View (List Value) := ⟨.array, Value.array?, fun v => by cases v <;> rfl⟩

def object : View (List (String × Value)) := ⟨.object, Value.object?, fun v => by cases v <;> rfl⟩

def reference : View Expr := ⟨.reference, Value.reference?, fun v => by cases v <;> rfl⟩

/-- What a value at a place holds. -/
def of (view : View α) (name : String) (place : Nat) (v : Value) : Outcome α :=
  match view.content? v with
  | some a => .done a
  | none => mismatch name place [view.type] v

/-- What the argument at a place holds. -/
def argument (view : View α) (name : String) (args : List Value) (place : Nat) : Outcome α :=
  view.of name place (argumentAt args place)

/-- What the values of a list hold; the first one of another type decides the error. -/
def each (view : View α) (name : String) (items : List Value) : Outcome (List α) :=
  items.zipIdx.mapM fun (v, place) => view.of name place v

end View

end JmesPath
