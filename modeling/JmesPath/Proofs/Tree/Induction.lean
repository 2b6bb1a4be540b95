import JmesPath.Members
import JmesPath.Proofs.Tree.Height

/-! # Induction on values and trees

A value may refer to a tree, and a tree may hold a value, so what holds of all values is shown
together with what holds of all trees.

* `Value.inside`, `Expr.held` — the values right inside a value, and at the root of a tree
* `values_and_trees` — the principle
* `values_induction`, `trees_induction` — for values and for trees alone
-/

namespace JmesPath

/-- The values right inside a value. -/
def Value.inside : Value → List Value
  | .array items => items
  | .object members => Members.values members
  | _ => []

/-- The value that the root of a tree holds, if it is a literal. -/
def Expr.held : Expr → List Value
  | .literal v => [v]
  | _ => []

theorem Expr.mem_held {e : Expr} {v : Value} : v ∈ e.held ↔ e = .literal v := by
  cases e <;> simp [Expr.held, eq_comm]

theorem sizeOf_lt_of_mem_children {e c : Expr} (hc : c ∈ e.children) : sizeOf c < sizeOf e := by
  cases e with
  | field | index | slice | identity | literal | current => cases hc
  | multiList items =>
    have : sizeOf c < sizeOf items := List.sizeOf_lt_of_mem hc
    simp only [Expr.multiList.sizeOf_spec]
    omega
  | call name args =>
    have : sizeOf c < sizeOf args := List.sizeOf_lt_of_mem hc
    simp only [Expr.call.sizeOf_spec]
    omega
  | multiHash members =>
    obtain ⟨⟨k, e⟩, hm, rfl⟩ := List.mem_map.1 hc
    have := List.sizeOf_lt_of_mem hm
    simp only [Expr.multiHash.sizeOf_spec, Prod.mk.sizeOf_spec] at this ⊢
    omega
  | _ =>
    simp only [Expr.children, List.mem_cons, List.not_mem_nil, or_false] at hc
    rcases hc with rfl | rfl | rfl <;> simp only [Expr.sub.sizeOf_spec, Expr.indexed.sizeOf_spec,
      Expr.project.sizeOf_spec, Expr.projectValues.sizeOf_spec, Expr.filter.sizeOf_spec,
      Expr.compare.sizeOf_spec, Expr.flatten.sizeOf_spec, Expr.or.sizeOf_spec,
      Expr.and.sizeOf_spec, Expr.not.sizeOf_spec, Expr.pipe.sizeOf_spec, Expr.ref.sizeOf_spec] <;>
      omega

theorem sizeOf_lt_of_mem_values {members : Members Value} {v : Value}
    (h : v ∈ Members.values members) : sizeOf v < sizeOf members := by
  obtain ⟨⟨k, w⟩, hm, rfl⟩ := List.mem_map.1 h
  have := List.sizeOf_lt_of_mem hm
  simp only [Prod.mk.sizeOf_spec] at this ⊢
  omega

theorem sizeOf_lt_of_mem_inside {v w : Value} (h : w ∈ v.inside) : sizeOf w < sizeOf v := by
  cases v with
  | null | boolean | number | string | reference => cases h
  | array items =>
    have : sizeOf w < sizeOf items := List.sizeOf_lt_of_mem h
    simp only [Value.array.sizeOf_spec]
    omega
  | object members =>
    have := sizeOf_lt_of_mem_values h
    simp only [Value.object.sizeOf_spec]
    omega

/-- What holds of a value if it holds of the values inside it and of the tree that it refers to,
    and of a tree if it holds of its literal and of its children, holds of all values and trees. -/
theorem values_and_trees {P : Value → Prop} {T : Expr → Prop}
    (value : ∀ v, (∀ w ∈ v.inside, P w) → (∀ e, v = .reference e → T e) → P v)
    (tree : ∀ e, (∀ v ∈ e.held, P v) → (∀ c ∈ e.children, T c) → T e) :
    (∀ v, P v) ∧ ∀ e, T e := by
  have hsmaller (n : Nat) : (∀ v, sizeOf v < n → P v) ∧ ∀ e, sizeOf e < n → T e := by
    induction n with
    | zero => exact ⟨nofun, nofun⟩
    | succ n ih =>
      refine ⟨fun v hv => value v (fun w hw => ih.1 w ?_) fun e he => ih.2 e ?_,
        fun e he => tree e (fun v hv => ih.1 v ?_) fun c hc => ih.2 c ?_⟩
      · have := sizeOf_lt_of_mem_inside hw
        omega
      · simp only [he, Value.reference.sizeOf_spec] at hv
        omega
      · simp only [Expr.mem_held.1 hv, Expr.literal.sizeOf_spec] at he
        omega
      · have := sizeOf_lt_of_mem_children hc
        omega
  exact ⟨fun v => (hsmaller _).1 v (Nat.lt_succ_self _),
    fun e => (hsmaller _).2 e (Nat.lt_succ_self _)⟩

/-- What holds of a value if it holds of the values inside it holds of all values. -/
theorem values_induction {P : Value → Prop} (value : ∀ v, (∀ w ∈ v.inside, P w) → P v)
    (v : Value) : P v :=
  (values_and_trees (T := fun _ => True) (fun v hinside _ => value v hinside)
    fun _ _ _ => trivial).1 v

/-- What holds of a tree if it holds of its children holds of all trees. -/
theorem trees_induction {T : Expr → Prop} (tree : ∀ e, (∀ c ∈ e.children, T c) → T e)
    (e : Expr) : T e :=
  (values_and_trees (P := fun _ => True) (fun _ _ _ => trivial)
    fun e _ hchildren => tree e hchildren).2 e

end JmesPath
