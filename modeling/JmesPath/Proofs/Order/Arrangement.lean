import JmesPath.Function.Builtins

/-! # Sorting keys that may be in no order

A sort merges where the keys are in an order.  Elsewhere it is left to the number of items
whether there is a list at all; if there is one, it has the same items.

* `Value.isNaN_iff` — the only values that spoil an order
* `consistent_of_no_nan`, `consistent_iff_of_nan` — keys in an order
* `perm_insertionSort` — insertions keep all items
* `Disordered` — the only keys that a sort has no list for
* `arrange_of_no_nan`, `arrange_of_no_order`, `arrange_outcome` — what comes of a sort
* `arrange_map` — items with the same keys are sorted alike
* `fallingNumbers` — keys without an order
-/

namespace JmesPath

open Builtin

theorem Value.isNaN_iff {v : Value} : v.isNaN = true ↔ v = .number .nan := by
  cases v with
  | number n => cases n <;> simp [Value.isNaN, Binary64.isNaN]
  | _ => simp [Value.isNaN]

/-- Keys that a sort may give up on: there is a not-a-number among them, and they are too many
    to be inserted. -/
def Disordered (keys : List Value) : Prop :=
  .number .nan ∈ keys ∧ insertionLimit < keys.length

theorem consistent_of_no_nan {keys : List Value} (h : .number .nan ∉ keys) :
    consistent keys = true := by
  refine Bool.or_eq_true_iff.2 (.inl (List.all_eq_true.2 fun key hkey => ?_))
  rw [Bool.not_eq_true', Bool.eq_false_iff]
  intro hnan
  exact h (Value.isNaN_iff.1 hnan ▸ hkey)

/-- Next to a not-a-number all keys have to count as equal. -/
theorem consistent_iff_of_nan {keys : List Value} (h : .number .nan ∈ keys) :
    consistent keys = true ↔ ∀ a ∈ keys, ∀ b ∈ keys, keyOrder a b = .eq := by
  have hspoiled : (keys.all fun key => !key.isNaN) = false :=
    List.all_eq_false.2 ⟨_, h, by decide⟩
  rw [consistent, hspoiled, Bool.false_or]
  simp only [List.all_eq_true, beq_iff_eq]

section

variable {α : Type} {key : α → Value}

/-! ## Insertions -/

theorem perm_insertItem (item : α) (sorted : List α) :
    (insertItem key item sorted).Perm (item :: sorted) := by
  induction sorted with
  | nil => exact .refl _
  | cons last others ih =>
    rw [insertItem]
    split
    · exact (ih.cons last).trans (.swap item last others)
    · exact .refl _

theorem perm_foldl_insertItem (items sorted : List α) :
    (items.foldl (fun sorted item => insertItem key item sorted) sorted).Perm
      (items ++ sorted) := by
  induction items generalizing sorted with
  | nil => exact .refl _
  | cons item items ih =>
    refine (ih (insertItem key item sorted)).trans ?_
    exact ((perm_insertItem item sorted).append_left items).trans List.perm_middle

theorem insertItem_map {β : Type} (f : β → α) (item : β) (sorted : List β) :
    insertItem key (f item) (sorted.map f) = (insertItem (key ∘ f) item sorted).map f := by
  induction sorted with
  | nil => rfl
  | cons last others ih =>
    simp only [List.map_cons, insertItem, Function.comp_apply]
    split
    · rw [ih, List.map_cons]
    · rfl

theorem insertionSort_map {β : Type} (f : β → α) (items : List β) :
    insertionSort key (items.map f) = (insertionSort (key ∘ f) items).map f := by
  have hfold (sorted : List β) :
      items.foldl (fun sorted item => insertItem key (f item) sorted) (sorted.map f) =
        (items.foldl (fun sorted item => insertItem (key ∘ f) item sorted) sorted).map f := by
    induction items generalizing sorted with
    | nil => rfl
    | cons item items ih => rw [List.foldl_cons, insertItem_map, ih, List.foldl_cons]
  rw [insertionSort, List.foldl_map, insertionSort, List.map_reverse]
  exact congrArg List.reverse (hfold [])

theorem perm_insertionSort (items : List α) : (insertionSort key items).Perm items := by
  have hperm : (items.foldl (fun sorted item => insertItem key item sorted) []).Perm
      (items ++ []) := perm_foldl_insertItem items []
  rw [List.append_nil] at hperm
  exact (List.reverse_perm _).trans hperm

-- Three counts as equal to the not-a-number, and so does one, so nothing is moved.
example :
    let items : List Value := [.number (.ofInt 3), .number .nan, .number (.ofInt 1)]
    (insertionSort id items).map Value.number? = items.map Value.number? := by
  decide +kernel

theorem map_snd_pair {β : Type} (f : α → β) (items : List α) :
    (items.map fun v => (f v, v)).map Prod.snd = items := by
  rw [List.map_map]
  exact List.map_id items

/-! ## Outcomes -/

variable {name : String} {items : List α}

/-- Keys that can all be compared are sorted by merging. -/
theorem arrange_of_no_nan (h : .number .nan ∉ items.map key) :
    arrange key name items = .done (items.mergeSort fun a b => keyLE (key a) (key b)) :=
  if_pos (consistent_of_no_nan h)

theorem arrange_of_no_order (h : consistent (items.map key) = false)
    (hmany : insertionLimit < items.length) :
    arrange key name items = .failed (.unordered name) := by
  rw [arrange, if_neg (Bool.not_eq_true _ ▸ h), if_neg (Nat.not_le.2 hmany)]

/-- A sort gives up on disordered keys only, and otherwise there is a list of the items. -/
theorem arrange_outcome (key : α → Value) (name : String) (items : List α) :
    (∃ sorted, arrange key name items = .done sorted ∧ sorted.Perm items) ∨
      arrange key name items = .failed (.unordered name) ∧ Disordered (items.map key) := by
  by_cases hnan : .number .nan ∈ items.map key
  · unfold arrange
    split
    · exact .inl ⟨_, rfl, List.mergeSort_perm _ _⟩
    · split
      · exact .inl ⟨_, rfl, perm_insertionSort items⟩
      · next hlong => exact .inr ⟨rfl, hnan, by simpa using hlong⟩
  · exact .inl ⟨_, arrange_of_no_nan hnan, List.mergeSort_perm _ _⟩

/-- The name is for the error only. -/
theorem arrange_eq_done_iff_of_name (name name' : String) {sorted : List α} :
    arrange key name items = .done sorted ↔ arrange key name' items = .done sorted := by
  unfold arrange
  split
  · exact .rfl
  · split
    · exact .rfl
    · exact iff_of_false nofun nofun

/-- It does not matter to a sort what the items are that have the keys. -/
theorem arrange_map {β : Type} (f : β → α) (name : String) (items : List β) :
    arrange key name (items.map f) =
      arrange (key ∘ f) name items >>= fun sorted => .done (sorted.map f) := by
  unfold arrange
  rw [List.map_map, List.length_map]
  split
  · have hsorted : (items.mergeSort fun a b => keyLE (key (f a)) (key (f b))).map f =
        (items.map f).mergeSort fun a b => keyLE (key a) (key b) :=
      List.map_mergeSort fun _ _ _ _ => rfl
    exact congrArg Outcome.done hsorted.symm
  · split
    · rw [Outcome.done_bind, insertionSort_map]
    · rfl

end

/-- The numbers from twenty to zero, one of them replaced by a not-a-number. -/
def fallingNumbers : List Value :=
  .number (.ofInt 20) :: .number .nan ::
    (List.range 19).reverse.map fun n : Nat => .number (.ofInt n)

theorem consistent_fallingNumbers : consistent fallingNumbers = false := by decide +kernel

end JmesPath
