import JmesPath.Proofs.Eval.Visits
import JmesPath.Proofs.Json.Finite
import JmesPath.Proofs.Tree.Compiled
import JmesPath.Proofs.Tree.Contents

/-! # Each key once

The objects of documents and of literals have each key once, and an evaluation makes no others.

* `keysOnce_of_read`, `noNaN_of_read` — documents that are read
* `compiled_keysOnce`, `compiled_noNaN` — trees that queries compile to
* `eval_keysOnce` — results
-/

namespace JmesPath

open Rules

/-! ## Documents -/

/-- What a document may hold: objects with each key once, and numbers. -/
theorem compositional_proper : Json.Reader.Compositional fun j =>
    (Value.ofJson j).Everywhere fun v => v.HasKeysOnce ∧ v ≠ .number .nan where
  null := everywhere_leaf rfl nofun ⟨trivial, nofun⟩
  boolean _ := everywhere_leaf rfl nofun ⟨trivial, nofun⟩
  number hn := by
    refine everywhere_leaf rfl nofun ⟨trivial, fun h => ?_⟩
    rw [Value.number.inj h] at hn
    cases hn
  string _ := everywhere_leaf rfl nofun ⟨trivial, nofun⟩
  array h := by
    rw [Value.ofJson, Value.ofJsonItems_eq_map, everywhere_array, List.forall_mem_map]
    exact ⟨⟨trivial, nofun⟩, h⟩
  object {pairs} h := by
    rw [Value.ofJson, everywhere_object, Value.HasKeysOnce, Value.keys_ofJsonMembers,
      Value.values_ofJsonMembers, List.forall_mem_map]
    exact ⟨⟨Members.nodup_keys_ofList pairs, nofun⟩, Members.forall_values_ofList h⟩

theorem keysOnce_of_read {text : List Char} {j : Json} (h : Json.read text = .ok j) :
    (Value.ofJson j).KeysOnce := fun part hpart => (compositional_proper.of_read h part hpart).1

theorem noNaN_of_read {text : List Char} {j : Json} (h : Json.read text = .ok j) :
    (Value.ofJson j).NoNaN := fun part hpart => (compositional_proper.of_read h part hpart).2

/-! ## Trees -/

theorem Value.IsWritten.keysOnce {v : Value} (h : v.IsWritten) : v.KeysOnce := by
  cases h with
  | string => exact everywhere_leaf rfl nofun trivial
  | read h => exact keysOnce_of_read h

theorem Value.IsWritten.noNaN {v : Value} (h : v.IsWritten) : v.NoNaN := by
  cases h with
  | string => exact everywhere_leaf rfl nofun nofun
  | read h => exact noNaN_of_read h

theorem compiled_keysOnce {limit : Nat} {source : List Char} {e : Expr}
    (h : compile limit source = .ok e) : e.KeysOnce :=
  fun _ hv => (compiled_literal h hv).keysOnce

theorem compiled_noNaN {limit : Nat} {source : List Char} {e : Expr}
    (h : compile limit source = .ok e) : e.NoNaN :=
  fun _ hv => (compiled_literal h hv).noNaN

/-! ## Results -/

theorem handedOn_keysOnce : HandedOn Value.KeysOnce Expr.KeysOnce where
  inherited := {
    null := everywhere_leaf rfl nofun trivial
    boolean := fun _ => everywhere_leaf rfl nofun trivial
    number := fun _ => everywhere_leaf rfl nofun trivial
    string := fun _ => everywhere_leaf rfl nofun trivial
    array := everywhere_array.trans (and_iff_right trivial)
    member := fun h => (everywhere_object.1 h).2
    object := fun hkeys h => everywhere_object.2 ⟨hkeys, h⟩ }
  child := Expr.Everywhere.child
  literal h := h.held List.mem_cons_self
  reference h := everywhere_reference.2 ⟨trivial, h.child List.mem_cons_self⟩
  referred := Value.Everywhere.tree

/-- A result has objects with each key once if the value and the literals of the tree do. -/
theorem eval_keysOnce {n : Nat} {e : Expr} {v r : Value} (he : e.KeysOnce) (hv : v.KeysOnce)
    (h : eval n e v = .done r) : r.KeysOnce :=
  handedOn_keysOnce.eval he hv h

end JmesPath
