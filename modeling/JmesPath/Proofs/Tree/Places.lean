import JmesPath.Proofs.Tree.Height

/-! # Places in trees

Some trees only stand in certain places below others.

* `Place` — where a tree stands below its parent
* `Expr.placed` — the trees right below the root, each with its place
* `Expr.HasAt` — a node of a tree, with its place
-/

namespace JmesPath

/-- Where a tree stands: on its own, or below a parent.  The operands of operators, the items
    of lists and hashes, arguments and the bodies of references are all `inner`. -/
inductive Place
  | root
  | subLeft
  | subRight
  | indexedLeft
  | indexedRight
  | projectLeft
  | projectRight
  | valuesLeft
  | valuesRight
  | filterLeft
  | filterRight
  | filterCondition
  | flattened
  | inner
  deriving DecidableEq

namespace Expr

/-- The trees right below the root, each with its place. -/
def placed : Expr → List (Place × Expr)
  | .sub a b => [(.subLeft, a), (.subRight, b)]
  | .indexed a b => [(.indexedLeft, a), (.indexedRight, b)]
  | .project a b => [(.projectLeft, a), (.projectRight, b)]
  | .projectValues a b => [(.valuesLeft, a), (.valuesRight, b)]
  | .filter a b c => [(.filterLeft, a), (.filterRight, b), (.filterCondition, c)]
  | .flatten a => [(.flattened, a)]
  | .compare _ a b => [(.inner, a), (.inner, b)]
  | .or a b => [(.inner, a), (.inner, b)]
  | .and a b => [(.inner, a), (.inner, b)]
  | .pipe a b => [(.inner, a), (.inner, b)]
  | .not a => [(.inner, a)]
  | .ref a => [(.inner, a)]
  | .multiList items => items.map (.inner, ·)
  | .multiHash members => members.map fun m => (.inner, m.2)
  | .call _ args => args.map (.inner, ·)
  | .field _ | .index _ | .slice .. | .identity | .literal _ | .current => []

theorem map_snd_placed (e : Expr) : e.placed.map Prod.snd = e.children := by
  cases e <;> simp [placed, children, Function.comp_def]

/-- A node of a tree, and the place where it stands. -/
inductive HasAt (e : Expr) : Place → Expr → Prop
  | root : HasAt e .root e
  | child {place below : Place} {node c : Expr} :
      HasAt e place node → (below, c) ∈ node.placed → HasAt e below c

theorem HasAt.exists_place {e mid node : Expr} {place : Place} (h : e.HasAt place mid)
    (hnode : mid.HasNode node) : ∃ below, e.HasAt below node := by
  induction hnode generalizing place with
  | root => exact ⟨place, h⟩
  | child hc _ ih =>
    rw [← map_snd_placed] at hc
    obtain ⟨⟨below, c⟩, hplaced, rfl⟩ := List.mem_map.1 hc
    exact ih (h.child hplaced)

/-- Every node of a tree stands in a place. -/
theorem HasNode.exists_place {e node : Expr} (h : e.HasNode node) :
    ∃ place, e.HasAt place node :=
  HasAt.root.exists_place h

end Expr

end JmesPath
