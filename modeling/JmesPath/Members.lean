/-! # Members of an object

An object's members are a list of keys with their values, each key once, in the order
in which the keys first came.

* `Members.get?` — the value of a key
* `Members.insert` — a new value for a key; a key that is there keeps its place
* `Members.ofList` — pairs inserted one after the other
-/

namespace JmesPath

/-- Keys with their values. -/
abbrev Members (α : Type) := List (String × α)

namespace Members

variable {α : Type}

def get? : Members α → String → Option α
  | [], _ => none
  | (k, v) :: rest, key => if k = key then some v else get? rest key

/-- Gives a key a value.  A key that is there keeps its place, a new one comes last. -/
def insert (key : String) (value : α) : Members α → Members α
  | [] => [(key, value)]
  | (k, v) :: rest => if k = key then (k, value) :: rest else (k, v) :: insert key value rest

def insertAll (members : Members α) (pairs : List (String × α)) : Members α :=
  pairs.foldl (fun acc (k, v) => insert k v acc) members

/-- The members that pairs make when they are inserted one after the other. -/
def ofList (pairs : List (String × α)) : Members α := insertAll [] pairs

def keys (members : Members α) : List String := members.map Prod.fst

def values (members : Members α) : List α := members.map Prod.snd

end Members

end JmesPath
