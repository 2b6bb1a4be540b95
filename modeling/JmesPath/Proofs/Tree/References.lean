import JmesPath.Json.Basic
import JmesPath.Proofs.Tree.Induction

/-! # References in values and trees

* `Value.references`, `Expr.references` — all expressions that are referred to, at any depth
* `Value.IsData` — a value that refers to nothing
* `Value.Within`, `Expr.Within` — all of them are of a set
* `Saturated` — a set that holds the references inside its expressions, too
* `saturated_references` — the references of a tree are such a set
-/

namespace JmesPath

mutual
/-- The expressions that a value refers to, with those inside them. -/
def Value.references : Value → List Expr
  | .null => []
  | .boolean _ => []
  | .number _ => []
  | .string _ => []
  | .array items => itemReferences items
  | .object members => memberReferences members
  | .reference e => e :: Expr.references e

def itemReferences : List Value → List Expr
  | [] => []
  | v :: vs => Value.references v ++ itemReferences vs

def memberReferences : List (String × Value) → List Expr
  | [] => []
  | (_, v) :: vs => Value.references v ++ memberReferences vs

/-- The expressions that a tree refers to, with those inside them and in its literals. -/
def Expr.references : Expr → List Expr
  | .sub a b => Expr.references a ++ Expr.references b
  | .indexed a b => Expr.references a ++ Expr.references b
  | .project a b => Expr.references a ++ Expr.references b
  | .projectValues a b => Expr.references a ++ Expr.references b
  | .filter a b c => Expr.references a ++ (Expr.references b ++ Expr.references c)
  | .compare _ a b => Expr.references a ++ Expr.references b
  | .flatten a => Expr.references a
  | .multiList items => treeReferences items
  | .multiHash members => hashReferences members
  | .or a b => Expr.references a ++ Expr.references b
  | .and a b => Expr.references a ++ Expr.references b
  | .not a => Expr.references a
  | .literal v => Value.references v
  | .pipe a b => Expr.references a ++ Expr.references b
  | .call _ args => treeReferences args
  | .ref a => a :: Expr.references a
  | .field _ => []
  | .index _ => []
  | .slice .. => []
  | .identity => []
  | .current => []

def treeReferences : List Expr → List Expr
  | [] => []
  | e :: es => Expr.references e ++ treeReferences es

def hashReferences : List (String × Expr) → List Expr
  | [] => []
  | (_, e) :: es => Expr.references e ++ hashReferences es
end

theorem mem_itemReferences {r : Expr} {items : List Value} :
    r ∈ itemReferences items ↔ ∃ v ∈ items, r ∈ v.references := by
  induction items with
  | nil => simp [itemReferences]
  | cons v vs ih => simp [itemReferences, ih]

theorem mem_memberReferences {r : Expr} {members : List (String × Value)} :
    r ∈ memberReferences members ↔ ∃ v ∈ Members.values members, r ∈ v.references := by
  induction members with
  | nil => simp [memberReferences, Members.values]
  | cons m ms ih =>
    obtain ⟨k, v⟩ := m
    rw [memberReferences, List.mem_append, ih]
    simp [Members.values]

theorem mem_treeReferences {r : Expr} {es : List Expr} :
    r ∈ treeReferences es ↔ ∃ e ∈ es, r ∈ e.references := by
  induction es with
  | nil => simp [treeReferences]
  | cons e es ih => simp [treeReferences, ih]

theorem mem_hashReferences {r : Expr} {members : List (String × Expr)} :
    r ∈ hashReferences members ↔ ∃ e ∈ members.map Prod.snd, r ∈ e.references := by
  induction members with
  | nil => simp [hashReferences]
  | cons m ms ih =>
    obtain ⟨k, e⟩ := m
    rw [hashReferences, List.mem_append, ih]
    simp

/-- Where a reference of a tree is: at the root, in a literal, or in a child. -/
theorem mem_references_iff {e r : Expr} :
    r ∈ e.references ↔ e = .ref r ∨ (∃ v, e = .literal v ∧ r ∈ v.references) ∨
      ∃ c ∈ e.children, r ∈ c.references := by
  cases e <;> simp [Expr.references, Expr.children, mem_treeReferences, mem_hashReferences,
    eq_comm]

/-- Where a reference of a value is: in a value inside it, or in the tree that it refers to. -/
theorem Value.mem_references_iff {v : Value} {r : Expr} :
    r ∈ v.references ↔ (∃ w ∈ v.inside, r ∈ w.references) ∨
      ∃ e, v = .reference e ∧ (r = e ∨ r ∈ e.references) := by
  cases v <;> simp [Value.references, Value.inside, mem_itemReferences, mem_memberReferences]

/-- The references inside a reference are references, too. -/
theorem references_trans :
    (∀ (v : Value) (r s : Expr), r ∈ v.references → s ∈ r.references → s ∈ v.references) ∧
    ∀ e r s : Expr, r ∈ e.references → s ∈ r.references → s ∈ e.references := by
  refine values_and_trees (fun v hinside htree r s hr hs => ?_)
    fun e hheld hchildren r s hr hs => ?_
  · rw [Value.mem_references_iff] at hr ⊢
    rcases hr with ⟨w, hw, hr⟩ | ⟨e, he, rfl | hr⟩
    · exact .inl ⟨w, hw, hinside w hw r s hr hs⟩
    · exact .inr ⟨r, he, .inr hs⟩
    · exact .inr ⟨e, he, .inr (htree e he r s hr hs)⟩
  · rcases mem_references_iff.1 hr with rfl | ⟨v, he, hr⟩ | ⟨c, hc, hr⟩
    · exact List.mem_cons_of_mem _ hs
    · have hv := hheld v (Expr.mem_held.2 he) r s hr hs
      exact mem_references_iff.2 (.inr (.inl ⟨v, he, hv⟩))
    · exact mem_references_iff.2 (.inr (.inr ⟨c, hc, hchildren c hc r s hr hs⟩))

/-! ## Sets of references -/

/-- A value is data: it refers to nothing. -/
def Value.IsData (v : Value) : Prop := v.references = []

/-- All references of a value are of a set. -/
def Value.Within (S : Expr → Prop) (v : Value) : Prop := ∀ r ∈ v.references, S r

/-- All references of a tree are of a set. -/
def Expr.Within (S : Expr → Prop) (e : Expr) : Prop := ∀ r ∈ e.references, S r

/-- A set of references that holds the references inside them, too. -/
def Saturated (S : Expr → Prop) : Prop := ∀ r, S r → r.Within S

section

variable {S : Expr → Prop}

@[simp] theorem within_null : Value.null.Within S := List.forall_mem_nil _

@[simp] theorem within_boolean (b : Bool) : (Value.boolean b).Within S := List.forall_mem_nil _

@[simp] theorem within_string (s : String) : (Value.string s).Within S := List.forall_mem_nil _

theorem Value.IsData.within {v : Value} (h : v.IsData) : v.Within S :=
  fun r hr => by rw [h] at hr; cases hr

theorem within_array {items : List Value} :
    (Value.array items).Within S ↔ ∀ v ∈ items, v.Within S := by
  simp only [Value.Within, Value.references, mem_itemReferences]
  exact ⟨fun h v hv r hr => h r ⟨v, hv, hr⟩, fun h r ⟨v, hv, hr⟩ => h v hv r hr⟩

theorem within_object {members : Members Value} :
    (Value.object members).Within S ↔ ∀ v ∈ Members.values members, v.Within S := by
  simp only [Value.Within, Value.references, mem_memberReferences]
  exact ⟨fun h v hv r hr => h r ⟨v, hv, hr⟩, fun h r ⟨v, hv, hr⟩ => h v hv r hr⟩

theorem within_reference {e : Expr} (h : (Value.reference e).Within S) : S e :=
  h e List.mem_cons_self

theorem Saturated.reference (hS : Saturated S) {e : Expr} (h : S e) :
    (Value.reference e).Within S :=
  List.forall_mem_cons.2 ⟨h, hS e h⟩

theorem Expr.Within.child {e c : Expr} (h : e.Within S) (hc : c ∈ e.children) : c.Within S :=
  fun r hr => h r (mem_references_iff.2 (.inr (.inr ⟨c, hc, hr⟩)))

end

mutual
/-- Documents hold no references. -/
theorem references_ofJson (data : Json) : (Value.ofJson data).references = [] := by
  cases data with
  | null | boolean | number | string => rfl
  | array items => exact itemReferences_ofJson items
  | object members => exact memberReferences_ofJson members

theorem itemReferences_ofJson (items : List Json) :
    itemReferences (Value.ofJsonItems items) = [] := by
  cases items with
  | nil => rfl
  | cons j js =>
    rw [Value.ofJsonItems, itemReferences, references_ofJson j, itemReferences_ofJson js,
      List.append_nil]

theorem memberReferences_ofJson (members : List (String × Json)) :
    memberReferences (Value.ofJsonMembers members) = [] := by
  match members with
  | [] => rfl
  | (k, j) :: js =>
    rw [Value.ofJsonMembers, memberReferences, references_ofJson j, memberReferences_ofJson js,
      List.append_nil]
end

theorem isData_ofJson (data : Json) : (Value.ofJson data).IsData := references_ofJson data

/-- The references of a tree hold the references inside them. -/
theorem saturated_references (e : Expr) : Saturated (· ∈ e.references) :=
  fun r hr s hs => references_trans.2 e r s hr hs

end JmesPath
