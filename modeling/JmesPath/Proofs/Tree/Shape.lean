import Mathlib
import JmesPath.Proofs.Json.Finite
import JmesPath.Proofs.Tree.Compiled

/-! # The shape of compiled trees

* `Expr.FitsAt` — what a tree is like that may stand in a place
* `Made.fitsAt` — the productions only make trees that fit
* `compiled_shape` — all nodes of a compiled tree fit
-/

namespace JmesPath

open Rules

/-- A tree may stand in a place of a compiled tree. -/
structure Expr.FitsAt (place : Place) (e : Expr) : Prop where
  /-- Indices and slices stand behind what they select from, and nothing else does. -/
  selector : e.kind ∈ ["Index", "Slice"] ↔ place = .indexedRight
  /-- The part that a slice selects is projected. -/
  sliced : ∀ left start stop step, e = .indexed left (.slice start stop step) →
    place = .projectLeft
  /-- So is what is flattened. -/
  flattened : ∀ inner, e = .flatten inner → place = .projectLeft
  /-- Trees are only left out where a selection starts or a projection ends. -/
  identity : e = .identity → place ∈ openPlaces
  /-- What stands behind a dot is no operator. -/
  dotted : place = .subRight → e.kind ∈ dottedKinds
  multiList : ∀ items, e = .multiList items → items ≠ []
  multiHash : ∀ members, e = .multiHash members → members ≠ []
  /-- A literal holds no reference and no number that is not finite. -/
  literal : ∀ v, e = .literal v → v.IsData ∧ v.Finite

theorem Value.IsWritten.finite {v : Value} (h : v.IsWritten) : v.Finite := by
  cases h with
  | string => exact List.forall_mem_nil _
  | read h => exact Json.finite_of_read h

theorem Rules.Plain.not_selector {P : Value → Prop} {Q : String → Prop} {e : Expr}
    (h : Plain P Q e) : e.kind ∉ ["Index", "Slice"] := by
  cases e with
  | index | slice => exact h.elim
  | _ => simp [Expr.kind]

/-- The productions put no tree where it does not fit. -/
theorem Rules.Made.fitsAt {Q : String → Prop} {place : Place} {e : Expr}
    (h : Made Value.IsWritten Q place e) : e.FitsAt place := by
  cases h with
  | given hplace hdotted hbuilt =>
    have hplain := hbuilt.plain
    refine ⟨iff_of_false hplain.not_selector hplace, ?_, ?_, ?_, hdotted, ?_, ?_, ?_⟩
    · rintro left start stop step rfl
      obtain ⟨i, hi⟩ := hplain
      cases hi
    · rintro inner rfl
      exact hplain.elim
    · rintro rfl
      exact hplain.elim
    · rintro items rfl
      exact hplain
    · rintro members rfl
      exact hplain
    · rintro v rfl
      exact ⟨hplain.isData, hplain.finite⟩
  | missing hplace =>
    have hne : place ≠ .indexedRight ∧ place ≠ .subRight := by
      constructor <;> rintro rfl <;> simp [openPlaces] at hplace
    constructor <;> simp [Expr.kind, hne, hplace]
  | index | slice | indexed | flatten => constructor <;> simp [Expr.kind]

/-- All nodes of a tree that a query compiles to fit into their places. -/
theorem compiled_shape {limit : Nat} {source : List Char} {e : Expr}
    (h : compile limit source = .ok e) {place : Place} {node : Expr}
    (hat : e.HasAt place node) : node.FitsAt place := by
  obtain ⟨ts, hspelled, hread⟩ := compile_eq_ok_iff.1 h
  exact ((expression_built hread hspelled.sourced).made hat).fitsAt

/-- A slice in front of an index. -/
theorem compiled_shape_of_slice :
    ∃ e, compile defaultLimit "a[1:].b[0]".toList = .ok e ∧
      e.HasAt .projectLeft (.indexed (.field "a") (.slice (some 1) none none)) ∧
      (Expr.indexed (.field "a") (.slice (some 1) none none)).FitsAt .projectLeft := by
  let sliced : Expr := .indexed (.field "a") (.slice (some 1) none none)
  let e : Expr := .project sliced (.indexed (.field "b") (.index 0))
  have hcompile : compile defaultLimit "a[1:].b[0]".toList = .ok e := by cbv
  have hat : e.HasAt .projectLeft sliced := .child .root List.mem_cons_self
  exact ⟨e, hcompile, hat, compiled_shape hcompile hat⟩

end JmesPath
