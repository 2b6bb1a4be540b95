import JmesPath.Proofs.Tree.Induction

/-! # What values hold

A value holds values in its arrays and its objects, and, where it refers to a tree, in the
literals of the tree.

* `Value.Holds` — the values in a value, at any depth, and the value itself
* `Value.Everywhere`, `Expr.Everywhere` — all of them have a property
* `Value.KeysOnce`, `Value.NoNaN` — objects that have each key once, and no not-a-numbers
-/

namespace JmesPath

/-- A value is in a value: it is the value itself, or it is in a value inside it, or in a literal
    of the tree that it refers to. -/
inductive Value.Holds : Value → Value → Prop
  | self (v : Value) : Holds v v
  | inside {v w part : Value} : w ∈ v.inside → Holds w part → Holds v part
  | literal {e : Expr} {w part : Value} :
      e.HasNode (.literal w) → Holds w part → Holds (.reference e) part

/-- All values in a value have a property. -/
def Value.Everywhere (P : Value → Prop) (v : Value) : Prop := ∀ part, v.Holds part → P part

/-- All values in the literals of a tree have a property. -/
def Expr.Everywhere (P : Value → Prop) (e : Expr) : Prop :=
  ∀ v, e.HasNode (.literal v) → v.Everywhere P

section

variable {P : Value → Prop}

theorem Value.everywhere_iff {v : Value} :
    v.Everywhere P ↔
      P v ∧ (∀ w ∈ v.inside, w.Everywhere P) ∧ ∀ e, v = .reference e → e.Everywhere P := by
  constructor
  · intro h
    refine ⟨h v (.self v), fun w hw part hpart => h part (.inside hw hpart), ?_⟩
    rintro e rfl w hw part hpart
    exact h part (.literal hw hpart)
  · rintro ⟨hself, hinside, htree⟩ part hpart
    cases hpart with
    | self => exact hself
    | inside hw hpart => exact hinside _ hw part hpart
    | literal hw hpart => exact htree _ rfl _ hw part hpart

theorem Expr.everywhere_iff {e : Expr} :
    e.Everywhere P ↔ (∀ v ∈ e.held, v.Everywhere P) ∧ ∀ c ∈ e.children, c.Everywhere P := by
  constructor
  · intro h
    refine ⟨fun v hv => h v ?_, fun c hc v hv => h v (.child hc hv)⟩
    rw [Expr.mem_held.1 hv]
    exact .root _
  · rintro ⟨hheld, hchildren⟩ v hv
    cases hv with
    | root => exact hheld v (Expr.mem_held.2 rfl)
    | child hc hv => exact hchildren _ hc v hv

theorem Value.Everywhere.self {v : Value} (h : v.Everywhere P) : P v := (everywhere_iff.1 h).1

theorem Value.Everywhere.inside {v w : Value} (h : v.Everywhere P) (hw : w ∈ v.inside) :
    w.Everywhere P :=
  (everywhere_iff.1 h).2.1 w hw

theorem Value.Everywhere.tree {e : Expr} (h : (Value.reference e).Everywhere P) :
    e.Everywhere P :=
  (everywhere_iff.1 h).2.2 e rfl

theorem Expr.Everywhere.held {e : Expr} {v : Value} (h : e.Everywhere P) (hv : v ∈ e.held) :
    v.Everywhere P :=
  (everywhere_iff.1 h).1 v hv

theorem Expr.Everywhere.child {e c : Expr} (h : e.Everywhere P) (hc : c ∈ e.children) :
    c.Everywhere P :=
  (everywhere_iff.1 h).2 c hc

/-- A value with nothing inside. -/
theorem everywhere_leaf {v : Value} (hinside : v.inside = []) (hdata : ∀ e, v ≠ .reference e)
    (h : P v) : v.Everywhere P :=
  Value.everywhere_iff.2 ⟨h, by simp [hinside], fun e he => absurd he (hdata e)⟩

theorem everywhere_array {items : List Value} :
    (Value.array items).Everywhere P ↔ P (.array items) ∧ ∀ v ∈ items, v.Everywhere P := by
  rw [Value.everywhere_iff]
  simp [Value.inside]

theorem everywhere_object {members : Members Value} :
    (Value.object members).Everywhere P ↔
      P (.object members) ∧ ∀ v ∈ Members.values members, v.Everywhere P := by
  rw [Value.everywhere_iff]
  simp [Value.inside]

theorem everywhere_reference {e : Expr} :
    (Value.reference e).Everywhere P ↔ P (.reference e) ∧ e.Everywhere P := by
  rw [Value.everywhere_iff]
  simp [Value.inside]

end

/-! ## Keys and numbers -/

/-- An object has each key once. -/
def Value.HasKeysOnce : Value → Prop
  | .object members => (Members.keys members).Nodup
  | _ => True

/-- All objects in a value have each key once. -/
abbrev Value.KeysOnce (v : Value) : Prop := v.Everywhere Value.HasKeysOnce

/-- All objects in the literals of a tree have each key once. -/
abbrev Expr.KeysOnce (e : Expr) : Prop := e.Everywhere Value.HasKeysOnce

/-- A value holds no not-a-number. -/
abbrev Value.NoNaN (v : Value) : Prop := v.Everywhere (· ≠ .number .nan)

/-- The literals of a tree hold no not-a-number. -/
abbrev Expr.NoNaN (e : Expr) : Prop := e.Everywhere (· ≠ .number .nan)

end JmesPath
