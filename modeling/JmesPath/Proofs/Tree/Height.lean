import JmesPath.Expr.Basic

/-! # Children, nodes and height

* `Expr.children` — the trees right below the root
* `Expr.HasNode` — the trees below the root, at any depth, and the tree itself
* `Expr.height` — the nodes on the longest way down
* `Expr.height_le_succ_iff` — the height by way of the children
-/

namespace JmesPath.Expr

/-- The trees right below the root. -/
def children : Expr → List Expr
  | .sub a b => [a, b]
  | .indexed a b => [a, b]
  | .project a b => [a, b]
  | .projectValues a b => [a, b]
  | .filter a b c => [a, b, c]
  | .compare _ a b => [a, b]
  | .flatten a => [a]
  | .multiList items => items
  | .multiHash members => members.map Prod.snd
  | .or a b => [a, b]
  | .and a b => [a, b]
  | .not a => [a]
  | .pipe a b => [a, b]
  | .call _ args => args
  | .ref a => [a]
  | .field _ => []
  | .index _ => []
  | .slice .. => []
  | .identity => []
  | .literal _ => []
  | .current => []

/-- A node of a tree: the root, or a node of a child. -/
inductive HasNode : Expr → Expr → Prop
  | root (e : Expr) : HasNode e e
  | child {e c node : Expr} : c ∈ e.children → HasNode c node → HasNode e node

theorem hasNode_iff {e node : Expr} :
    e.HasNode node ↔ e = node ∨ ∃ c ∈ e.children, c.HasNode node := by
  constructor
  · intro h
    cases h with
    | root => exact .inl rfl
    | child hc h => exact .inr ⟨_, hc, h⟩
  · rintro (rfl | ⟨c, hc, h⟩)
    · exact .root e
    · exact .child hc h

theorem HasNode.of_child {e node c : Expr} (h : e.HasNode node) (hc : c ∈ node.children) :
    e.HasNode c := by
  induction h with
  | root => exact .child hc (.root c)
  | child hchild _ ih => exact .child hchild (ih hc)

theorem HasNode.trans {e mid node : Expr} (h : e.HasNode mid) (h' : mid.HasNode node) :
    e.HasNode node := by
  induction h with
  | root => exact h'
  | child hchild _ ih => exact .child hchild (ih h')

mutual
/-- The number of nodes on the longest way from the root down to a leaf. -/
def height : Expr → Nat
  | .sub a b => max a.height b.height + 1
  | .indexed a b => max a.height b.height + 1
  | .project a b => max a.height b.height + 1
  | .projectValues a b => max a.height b.height + 1
  | .filter a b c => max a.height (max b.height c.height) + 1
  | .compare _ a b => max a.height b.height + 1
  | .flatten a => a.height + 1
  | .multiList items => heightItems items + 1
  | .multiHash members => heightMembers members + 1
  | .or a b => max a.height b.height + 1
  | .and a b => max a.height b.height + 1
  | .not a => a.height + 1
  | .pipe a b => max a.height b.height + 1
  | .call _ args => heightItems args + 1
  | .ref a => a.height + 1
  | .field _ => 1
  | .index _ => 1
  | .slice .. => 1
  | .identity => 1
  | .literal _ => 1
  | .current => 1

/-- The height of the highest tree of a list. -/
def heightItems : List Expr → Nat
  | [] => 0
  | e :: es => max e.height (heightItems es)

/-- The height of the highest tree of a list of members. -/
def heightMembers : List (String × Expr) → Nat
  | [] => 0
  | (_, e) :: es => max e.height (heightMembers es)
end

theorem heightItems_le_iff {es : List Expr} {n : Nat} :
    heightItems es ≤ n ↔ ∀ e ∈ es, e.height ≤ n := by
  induction es with
  | nil => simp [heightItems]
  | cons e es ih => rw [heightItems, Nat.max_le, ih, List.forall_mem_cons]

theorem heightMembers_le_iff {members : List (String × Expr)} {n : Nat} :
    heightMembers members ≤ n ↔ ∀ e ∈ members.map Prod.snd, e.height ≤ n := by
  induction members with
  | nil => simp [heightMembers]
  | cons m members ih => rw [heightMembers, Nat.max_le, ih, List.map_cons, List.forall_mem_cons]

/-- A tree is one higher than its highest child. -/
theorem height_le_succ_iff {e : Expr} {n : Nat} :
    e.height ≤ n + 1 ↔ ∀ c ∈ e.children, c.height ≤ n := by
  cases e <;> simp only [height, children, heightItems_le_iff, heightMembers_le_iff, Nat.max_le,
    Nat.add_le_add_iff_right, Nat.le_add_left, List.mem_cons, List.not_mem_nil, or_false,
    forall_eq_or_imp, forall_eq, false_implies, implies_true]

theorem height_pos (e : Expr) : 0 < e.height := by
  cases e <;> simp [height]

theorem height_lt_of_mem_children {e c : Expr} (h : c ∈ e.children) : c.height < e.height := by
  obtain ⟨n, hn⟩ := Nat.exists_eq_add_one.2 e.height_pos
  rw [hn]
  exact Nat.lt_succ_of_le (height_le_succ_iff.1 (Nat.le_of_eq hn) c h)

end JmesPath.Expr
