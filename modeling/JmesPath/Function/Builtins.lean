import JmesPath.Function.Argument
import JmesPath.Function.Basic
import JmesPath.Members
import JmesPath.Number.Syntax
import JmesPath.Number.Total
import JmesPath.Text.Class
import JmesPath.Value.Order
import JmesPath.Value.Text

/-! # The functions of the language

* bodies, by subject: numbers, order, collections, text, types
* `builtins` — all functions, sorted by name
* `Function.find?` — the function of a name
* `callBuiltin` — a call by name
-/

namespace JmesPath

namespace Builtin

/-! ## Numbers -/

/-- A number for a number. -/
def numeric (name : String) (f : Binary64 → Binary64) : PlainBody := fun args => do
  let n ← View.number.argument name args 0
  .done (.number (f n))

def abs : PlainBody := numeric "abs" Binary64.abs
def ceil : PlainBody := numeric "ceil" Binary64.ceil
def floor : PlainBody := numeric "floor" Binary64.floor

/-- The numbers in the array that is the argument. -/
def numbers (name : String) (args : List Value) : Outcome (List Binary64) := do
  let items ← View.array.argument name args 0
  View.number.each name items

def sum : PlainBody := fun args => do
  let ns ← numbers "sum" args
  .done (.number (Binary64.total ns))

/-- There is no mean of nothing. -/
def avg : PlainBody := fun args => do
  match ← numbers "avg" args with
  | [] => .done .null
  | ns => .done (.number (Binary64.mean ns))

/-! ## Order -/

/-- The order of two keys; keys without an order count as equal. -/
def keyOrder (a b : Value) : Ordering := (a.compare? b).getD .eq

def keyLE (a b : Value) : Bool := (keyOrder a b).isLE

/-- The item whose key is ahead, in the wanted order, of all keys in front of it; of
    equal keys the first one counts. -/
def extremum {α : Type} (wanted : Ordering) (keyed : List (Value × α)) : Option (Value × α) :=
  keyed.foldl (fun best item =>
    match best with
    | some current => if keyOrder item.1 current.1 != wanted then some current else some item
    | none => some item) none

/-- The keys of items.  All keys have to be numbers or all have to be strings, and the
    first one decides which. -/
def sortKeys (name : String) (visit : Visit) (e : Expr) :
    (first? : Option Value.Kind) → List Value → Outcome (List Value)
  | _, [] => .done []
  | none, item :: items => do
    let key ← visit e item
    if key.kind = .number ∨ key.kind = .string then
      let keys ← sortKeys name visit e (some key.kind) items
      .done (key :: keys)
    else .failed (.keyType name [.number, .string] key.kind)
  | some kind, item :: items => do
    let key ← visit e item
    if key.kind = kind then
      let keys ← sortKeys name visit e (some kind) items
      .done (key :: keys)
    else .failed (.keyType name [kind] key.kind)

/-- The item with the extreme key, or `null` if there is none. -/
def extremumBy (name : String) (wanted : Ordering) : Body := fun visit args => do
  let items ← View.array.argument name args 0
  let e ← View.reference.argument name args 1
  let keys ← sortKeys name visit e none items
  .done (((extremum wanted (keys.zip items)).map Prod.snd).getD .null)

/-- The extreme item, or `null` if there is none. -/
def extremumOf (name : String) (wanted : Ordering) : PlainBody := fun args => do
  let items ← View.array.argument name args 0
  .done (((extremum wanted (items.zip items)).map Prod.snd).getD .null)

def max : PlainBody := extremumOf "max" .gt
def min : PlainBody := extremumOf "min" .lt
def maxBy : Body := extremumBy "max_by" .gt
def minBy : Body := extremumBy "min_by" .lt

/-! ### Sorting -/

/-- Whether keys of one type are in an order.  A not-a-number counts as equal to every number,
    so with one among them the keys are in an order only if they all count as equal. -/
def consistent (keys : List Value) : Bool :=
  keys.all (fun key => !key.isNaN) || keys.all fun a => keys.all fun b => keyOrder a b == .eq

section

variable {α : Type} (key : α → Value)

/-- Puts an item in front of the last ones that have greater keys.  The list is back to
    front. -/
def insertItem (item : α) : List α → List α
  | [] => [item]
  | last :: others =>
    if keyOrder (key item) (key last) = .lt then last :: insertItem item others
    else item :: last :: others

/-- Items as they come to stand when each in turn is inserted among those before it. -/
def insertionSort (items : List α) : List α :=
  (items.foldl (fun sorted item => insertItem key item sorted) []).reverse

/-- How many items are sorted by insertion at most. -/
def insertionLimit : Nat := 20

/-- Items in the order of their keys; those with equal keys keep their order.  If the keys are
    in no order, a few items stay as insertions leave them.  With more items the sort may notice,
    and then it stops the program; this is what it is taken to do. -/
def arrange (name : String) (items : List α) : Outcome (List α) :=
  if consistent (items.map key) then .done (items.mergeSort fun a b => keyLE (key a) (key b))
  else if items.length ≤ insertionLimit then .done (insertionSort key items)
  else .failed (.unordered name)

end

def sort : PlainBody := fun args => do
  let items ← View.array.argument "sort" args 0
  let sorted ← arrange id "sort" items
  .done (.array sorted)

/-- Items with equal keys keep their order. -/
def sortBy : Body := fun visit args => do
  let items ← View.array.argument "sort_by" args 0
  let e ← View.reference.argument "sort_by" args 1
  let keys ← sortKeys "sort_by" visit e none items
  let sorted ← arrange Prod.fst "sort_by" (keys.zip items)
  .done (.array (sorted.map Prod.snd))

/-! ## Collections -/

/-- The result on each item, `null` included. -/
def map : Body := fun visit args => do
  let e ← View.reference.argument "map" args 0
  let items ← View.array.argument "map" args 1
  let results ← items.mapM (visit e)
  .done (.array results)

def holdsText (needle : List Char) : List Char → Bool
  | [] => needle.isEmpty
  | c :: cs => needle.isPrefixOf (c :: cs) || holdsText needle cs

def contains : PlainBody := fun args =>
  let needle := argumentAt args 1
  match argumentAt args 0 with
  | .string s => .done (.boolean (needle.string?.any fun t => holdsText t.toList s.toList))
  | .array items => .done (.boolean (items.any fun item => item.equal needle))
  | other => mismatch "contains" 0 [.string, .array] other

def length : PlainBody := fun args =>
  match argumentAt args 0 with
  | .string s => .done (.number (.ofInt s.toList.length))
  | .array items => .done (.number (.ofInt items.length))
  | .object members => .done (.number (.ofInt members.length))
  | other => mismatch "length" 0 [.string, .array, .object] other

def reverse : PlainBody := fun args =>
  match argumentAt args 0 with
  | .string s => .done (.string (String.ofList s.toList.reverse))
  | .array items => .done (.array items.reverse)
  | other => mismatch "reverse" 0 [.string, .array] other

/-- An array made from the members of an object. -/
def ofMembers (name : String) (f : Members Value → List Value) : PlainBody := fun args => do
  let members ← View.object.argument name args 0
  .done (.array (f members))

def keys : PlainBody := ofMembers "keys" fun members => members.keys.map .string
def values : PlainBody := ofMembers "values" Members.values

/-- Later members win; a key keeps the place where it first came. -/
def merge : PlainBody := fun args => do
  let objects ← View.object.each "merge" args
  .done (.object (objects.foldl Members.insertAll []))

def notNull : PlainBody
  | args => .done ((args.find? fun v => !v.isNull).getD .null)

/-! ## Text -/

/-- Whether the first text has the second one at an end. -/
def textTest (name : String) (test : (part text : List Char) → Bool) : PlainBody := fun args => do
  let s ← View.string.argument name args 0
  let t ← View.string.argument name args 1
  .done (.boolean (test t.toList s.toList))

def startsWith : PlainBody := textTest "starts_with" List.isPrefixOf
def endsWith : PlainBody := textTest "ends_with" List.isSuffixOf

def join : PlainBody := fun args => do
  let separator ← View.string.argument "join" args 0
  let items ← View.array.argument "join" args 1
  let parts ← View.string.each "join" items
  .done (.string (separator.intercalate parts))

/-! ## Types -/

def type : PlainBody := fun args => .done (.string (argumentAt args 0).kind.name)

def toArray : PlainBody := fun args =>
  match argumentAt args 0 with
  | .array items => .done (.array items)
  | other => .done (.array [other])

/-- Strings stay as they are, and any other value becomes its JSON text. -/
def toString : PlainBody := fun args =>
  match argumentAt args 0 with
  | .string s => .done (.string s)
  | other => .done (.string other.compact)

/-- The number that a value is or that its text holds between white space; anything
    else has no number, and neither has text for a number that is not finite. -/
def numberOf : Value → Option Binary64
  | .number n => some n
  | .string s =>
    if numberSyntax.accepts s.toList then
      (Binary64.read? (trim s.toList)).filter Binary64.isFinite
    else none
  | _ => none

def toNumber : PlainBody := fun args =>
  .done (((numberOf (argumentAt args 0)).map Value.number).getD .null)

end Builtin

/-! ## The table -/

/-- All functions, sorted by name. -/
def builtins : List Function := [
  ⟨"abs", [⟨[.number], false⟩], "Absolute value of a number", fun _ => Builtin.abs⟩,
  ⟨"avg", [⟨[.arrayOfNumber], false⟩], "Mean of an array of numbers; null when empty",
    fun _ => Builtin.avg⟩,
  ⟨"ceil", [⟨[.number], false⟩], "Smallest integer not below the number", fun _ => Builtin.ceil⟩,
  ⟨"contains", [⟨[.string, .array], false⟩, ⟨[.any], false⟩],
    "Substring test for strings, membership test for arrays", fun _ => Builtin.contains⟩,
  ⟨"ends_with", [⟨[.string], false⟩, ⟨[.string], false⟩],
    "Whether the first string ends with the second", fun _ => Builtin.endsWith⟩,
  ⟨"floor", [⟨[.number], false⟩], "Largest integer not above the number", fun _ => Builtin.floor⟩,
  ⟨"join", [⟨[.string], false⟩, ⟨[.arrayOfString], false⟩],
    "Concatenates an array of strings with a separator", fun _ => Builtin.join⟩,
  ⟨"keys", [⟨[.object], false⟩], "Keys of an object, in insertion order", fun _ => Builtin.keys⟩,
  ⟨"length", [⟨[.string, .array, .object], false⟩],
    "Characters of a string, elements of an array, keys of an object", fun _ => Builtin.length⟩,
  ⟨"map", [⟨[.reference], false⟩, ⟨[.array], false⟩],
    "Applies an expression to every element, keeping nulls", Builtin.map⟩,
  ⟨"max", [⟨[.arrayOfNumber, .arrayOfString], false⟩],
    "Largest number or string; null when empty", fun _ => Builtin.max⟩,
  ⟨"max_by", [⟨[.array], false⟩, ⟨[.reference], false⟩],
    "Element with the largest expression key", Builtin.maxBy⟩,
  ⟨"merge", [⟨[.object], true⟩], "Merges objects left to right; later keys win",
    fun _ => Builtin.merge⟩,
  ⟨"min", [⟨[.arrayOfNumber, .arrayOfString], false⟩],
    "Smallest number or string; null when empty", fun _ => Builtin.min⟩,
  ⟨"min_by", [⟨[.array], false⟩, ⟨[.reference], false⟩],
    "Element with the smallest expression key", Builtin.minBy⟩,
  ⟨"not_null", [⟨[.any], true⟩], "First argument that is not null", fun _ => Builtin.notNull⟩,
  ⟨"reverse", [⟨[.string, .array], false⟩], "Reverses a string or an array",
    fun _ => Builtin.reverse⟩,
  ⟨"sort", [⟨[.arrayOfNumber, .arrayOfString], false⟩],
    "Sorts an array of numbers or of strings", fun _ => Builtin.sort⟩,
  ⟨"sort_by", [⟨[.array], false⟩, ⟨[.reference], false⟩],
    "Stable sort by an expression key", Builtin.sortBy⟩,
  ⟨"starts_with", [⟨[.string], false⟩, ⟨[.string], false⟩],
    "Whether the first string starts with the second", fun _ => Builtin.startsWith⟩,
  ⟨"sum", [⟨[.arrayOfNumber], false⟩], "Sum of an array of numbers", fun _ => Builtin.sum⟩,
  ⟨"to_array", [⟨[.any], false⟩], "Wraps a non-array value in a one-element array",
    fun _ => Builtin.toArray⟩,
  ⟨"to_number", [⟨[.any], false⟩], "Parses a string as a number; null when it is not one",
    fun _ => Builtin.toNumber⟩,
  ⟨"to_string", [⟨[.any], false⟩], "Strings unchanged, anything else as JSON text",
    fun _ => Builtin.toString⟩,
  ⟨"type", [⟨[.any], false⟩], "Type name of the value", fun _ => Builtin.type⟩,
  ⟨"values", [⟨[.object], false⟩], "Values of an object, in insertion order",
    fun _ => Builtin.values⟩]

def Function.find? (name : String) : Option Function :=
  builtins.find? fun f => f.name == name

def callBuiltin (visit : Visit) (name : String) (args : List Value) : Outcome Value :=
  match Function.find? name with
  | some f => f.call visit args
  | none => .failed (.unknownFunction name)

end JmesPath
