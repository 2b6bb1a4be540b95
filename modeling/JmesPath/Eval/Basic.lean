import JmesPath.Function.Builtins
import JmesPath.Value.Slice

/-! # Evaluation

A visit evaluates one node of a tree on a value.  It may open further visits: of the
node's children, and, through a function, of an expression that is referred to by a
value.  The second kind does not go down the tree, so an evaluation need not end;
`eval` takes the number of visits that may be open at once.

* `projectOver`, `selectFrom` — an expression on each element of a list
* `step` — one node, for a given way to visit others
* `eval` — a tree, for a number of nested visits
-/

namespace JmesPath

/-- The results on each item that are not `null`. -/
def projectOver (visit : Visit) (e : Expr) : List Value → Outcome (List Value)
  | [] => .done []
  | item :: items => do
    let r ← visit e item
    let rs ← projectOver visit e items
    .done (if r.isNull then rs else r :: rs)

/-- The items that a condition holds for. -/
def selectFrom (visit : Visit) (condition : Expr) : List Value → Outcome (List Value)
  | [] => .done []
  | item :: items => do
    let r ← visit condition item
    let rest ← selectFrom visit condition items
    .done (if r.isFalseLike then rest else item :: rest)

/-- The results of members, later ones of the same key in place of earlier ones. -/
def memberResults (visit : Visit) (v : Value) (members : List (String × Expr)) :
    Outcome (List (String × Value)) := do
  let results ← members.mapM fun (k, e) => do
    let r ← visit e v
    .done (k, r)
  .done (Members.ofList results)

/-- The elements of a list, with arrays replaced by their elements. -/
def dissolve (items : List Value) : List Value :=
  items.flatMap fun
    | .array inner => inner
    | other => [other]

/-- Evaluates one node; `visit` evaluates the others. -/
def step (visit : Visit) (e : Expr) (v : Value) : Outcome Value :=
  match e with
  | .field name =>
    match v with
    | .object members => .done ((Members.get? members name).getD .null)
    | _ => .done .null
  | .sub left right => do
    let base ← visit left v
    if base.isNull then .done .null else visit right base
  | .index i =>
    match v with
    | .array items => .done ((index? items i).getD .null)
    | _ => .done .null
  | .slice start stop step =>
    match v with
    | .array items =>
      match slice? items start stop step with
      | some part => .done (.array part)
      | none => .failed .zeroSliceStep
    | _ => .done .null
  | .indexed left right => do
    let base ← visit left v
    visit right base
  | .project left right => do
    match ← visit left v with
    | .array items => .array <$> projectOver visit right items
    | _ => .done .null
  | .projectValues left right => do
    match ← visit left v with
    | .object members => .array <$> projectOver visit right (Members.values members)
    | _ => .done .null
  | .filter left right condition => do
    match ← visit left v with
    | .array items =>
      -- The right side waits until the condition has been evaluated on every element.
      let selected ← selectFrom visit condition items
      .array <$> projectOver visit right selected
    | _ => .done .null
  | .compare op left right => do
    let a ← visit left v
    let b ← visit right v
    .done (op.apply a b)
  | .flatten e => do
    match ← visit e v with
    | .array items => .done (.array (dissolve items))
    | _ => .done .null
  | .identity => .done v
  | .current => .done v
  | .multiList items =>
    -- Even literals are lost here if there is nothing to select from.
    if v.isNull then .done .null else .array <$> items.mapM fun e => visit e v
  | .multiHash members =>
    if v.isNull then .done .null else .object <$> memberResults visit v members
  | .or left right => do
    let a ← visit left v
    if a.isFalseLike then visit right v else .done a
  | .and left right => do
    let a ← visit left v
    if a.isFalseLike then .done a else visit right v
  | .not e => do
    let a ← visit e v
    .done (.boolean a.isFalseLike)
  | .literal w => .done w
  | .pipe left right => do
    let base ← visit left v
    visit right base
  | .call name args => do
    let values ← args.mapM fun e => visit e v
    callBuiltin visit name values
  | .ref e => .done (.reference e)

/-- Evaluates a tree with at most `visits` visits open at once. -/
def eval : (visits : Nat) → Visit
  | 0 => fun _ _ => .unfinished
  | n + 1 => step (eval n)

end JmesPath
