import Mathlib.Data.List.Permutation
import JmesPath.Proofs.Order.Comparison

/-! # Stable sorts

A sort by keys lists the items of an array, each once, in the order of their keys, and items
with equal keys in the order of the array.  The order of the keys is that of the operators.

* `Ranked` — items with their keys, all in one order
* `Precedes` — what a sort sees to: a comparison of keys, and places for equal ones
* `exists_placed` — a sort of keyed entries, as a list of them with their places
* `exists_ranked_of_sortBy`, `callBuiltin_sort` — a sort with a reference and one without
* `sorts_are_stable` — both sorts
-/

namespace JmesPath

open Builtin

/-! ## Items with their keys -/

/-- Items with their keys, which are of one type and in an order. -/
structure Ranked (visit : Visit) (e : Expr) (items keys : List Value) : Prop where
  keyed : Keyed visit e items keys
  sortable : Sortable keys
  no_nan : .number .nan ∉ keys

section

variable {visit : Visit} {e : Expr} {items keys : List Value}

namespace Ranked

variable (h : Ranked visit e items keys)
include h

theorem sortKeys_eq (name : String) : sortKeys name visit e none items = .done keys :=
  sortKeys_eq_done_iff.2 ⟨h.keyed, h.sortable⟩

theorem length_eq : keys.length = items.length := h.keyed.length_eq.symm

theorem map_fst_zip : (keys.zip items).map Prod.fst = keys :=
  List.map_fst_zip (Nat.le_of_eq h.length_eq)

theorem map_snd_zip : (keys.zip items).map Prod.snd = items :=
  List.map_snd_zip (Nat.le_of_eq h.length_eq.symm)

theorem visit_of_mem_zip {p : Value × Value} (hp : p ∈ keys.zip items) :
    visit e p.2 = .done p.1 :=
  (List.forall₂_iff_zip.1 h.keyed.flip).2 hp

theorem alike_of_mem_zip {p q : Value × Value} (hp : p ∈ keys.zip items)
    (hq : q ∈ keys.zip items) : Alike p.1 q.1 :=
  h.sortable.alike h.no_nan (List.of_mem_zip hp).1 (List.of_mem_zip hq).1

end Ranked

end

/-! ## Sorts of entries -/

section

variable {α : Type}

/-- Entries in the order of their keys. -/
def sortEntries (keyed : List (Value × α)) : List (Value × α) :=
  keyed.mergeSort fun p q => keyLE p.1 q.1

/-- The order of entries by the ranks of their keys, on all entries. -/
def rankLE (p q : Value × α) : Bool := (compare p.1.rank q.1.rank).isLE

theorem rankLE_trans (p q r : Value × α) (hpq : rankLE p q = true) (hqr : rankLE q r = true) :
    rankLE p r = true :=
  Std.TransCmp.isLE_trans hpq hqr

theorem rankLE_total (p q : Value × α) : (rankLE p q || rankLE q p) = true := by
  unfold rankLE
  rw [compare_swap p.1.rank]
  cases compare p.1.rank q.1.rank <;> rfl

/-- Two placed entries in the order of a stable sort. -/
def InOrder (p q : (Value × α) × Nat) : Prop :=
  (compare p.1.1.rank q.1.1.rank).isLE ∧ (compare p.1.1.rank q.1.1.rank = .eq → p.2 < q.2)

theorem inOrder_of_zipIdxLE {p q : (Value × α) × Nat} (h : List.zipIdxLE rankLE p q = true)
    (hne : p.2 ≠ q.2) : InOrder p q := by
  unfold List.zipIdxLE at h
  split at h
  · next hle =>
    refine ⟨hle, fun heq => ?_⟩
    have hge : rankLE q.1 p.1 = true := by
      unfold rankLE
      rw [compare_swap p.1.1.rank, heq]
      rfl
    rw [if_pos hge, decide_eq_true_eq] at h
    omega
  · cases h

/-- A sort lists all entries, with their places, in the order of a stable sort. -/
theorem exists_placed {keyed : List (Value × α)}
    (halike : ∀ p ∈ keyed, ∀ q ∈ keyed, Alike p.1 q.1) :
    ∃ placed : List ((Value × α) × Nat), placed.Perm keyed.zipIdx ∧
      placed.map Prod.fst = sortEntries keyed ∧ placed.Pairwise InOrder := by
  -- The order of keys has its laws among these keys only, and that of ranks has them everywhere.
  have hsort : sortEntries keyed = keyed.mergeSort rankLE := by
    have hle : ∀ p ∈ keyed, ∀ q ∈ keyed, keyLE p.1 q.1 = rankLE (id p) (id q) :=
      fun p hp q hq => by rw [keyLE, (halike p hp q hq).keyOrder_eq]; rfl
    simpa only [List.map_id, sortEntries] using List.map_mergeSort hle
  have hperm := List.mergeSort_perm keyed.zipIdx (List.zipIdxLE rankLE)
  refine ⟨_, hperm, List.mergeSort_zipIdx.trans hsort.symm, ?_⟩
  have hplaces :
      (keyed.zipIdx.mergeSort (List.zipIdxLE rankLE)).Pairwise (fun p q => p.2 ≠ q.2) := by
    rw [← List.pairwise_map (f := Prod.snd) (R := (· ≠ ·))]
    refine (hperm.map Prod.snd).nodup_iff.2 ?_
    rw [List.zipIdx_map_snd]
    exact List.nodup_range' 1
  have hsorted := List.pairwise_mergeSort (List.zipIdxLE_trans rankLE_trans)
    (List.zipIdxLE_total rankLE_total) keyed.zipIdx
  exact (hsorted.and hplaces).imp fun h => inOrder_of_zipIdxLE h.1 h.2

end

/-! ## Sorts of items -/

/-- Items in the order of their keys. -/
def sortItems (keys items : List Value) : List Value :=
  (sortEntries (keys.zip items)).map Prod.snd

/-- A comparison holds between the keys of two items with their places, and if the keys are
    equal, the first item has its place in front of the second one's. -/
def Precedes (op : Comparison) (visit : Visit) (e : Expr) (p q : Value × Nat) : Prop :=
  ∃ a b, visit e p.1 = .done a ∧ visit e q.1 = .done b ∧ op.apply a b = .boolean true ∧
    (Comparison.equal.apply a b = .boolean true → p.2 < q.2)

/-- A sort of items by keys in an order lists all items in the order of a stable sort. -/
theorem Ranked.exists_sorted {visit : Visit} {e : Expr} {items keys : List Value}
    (h : Ranked visit e items keys) :
    ∃ placed : List (Value × Nat), placed.Perm items.zipIdx ∧
      sortItems keys items = placed.map Prod.fst ∧
      placed.Pairwise (Precedes .lessEqual visit e) := by
  obtain ⟨placed, hperm, hsorted, hpairwise⟩ :=
    exists_placed fun p hp q hq => h.alike_of_mem_zip hp hq
  refine ⟨placed.map (Prod.map Prod.snd id), ?_, ?_, ?_⟩
  · have hzip := hperm.map (Prod.map Prod.snd id)
    rwa [List.map_zipIdx, h.map_snd_zip] at hzip
  · rw [sortItems, ← hsorted, List.map_map, List.map_map]
    rfl
  · rw [List.pairwise_map]
    refine hpairwise.imp_of_mem fun {p q} hp hq horder => ?_
    have hmem {p : (Value × Value) × Nat} (hp : p ∈ placed) : p.1 ∈ keys.zip items :=
      List.mem_of_getElem? (List.mem_zipIdx_iff_getElem?.1 (hperm.mem_iff.1 hp))
    have halike := h.alike_of_mem_zip (hmem hp) (hmem hq)
    refine ⟨p.1.1, q.1.1, h.visit_of_mem_zip (hmem hp), h.visit_of_mem_zip (hmem hq), ?_, ?_⟩
    · rw [halike.lessEqual, horder.1]
    · exact fun hequal => horder.2 (halike.equal_iff.1 hequal)

theorem Ranked.callBuiltin_sortBy_eq {visit : Visit} {e : Expr} {items keys : List Value}
    (h : Ranked visit e items keys) :
    callBuiltin visit "sort_by" [.array items, .reference e] =
      .done (.array (sortItems keys items)) := by
  have hnan : .number .nan ∉ (keys.zip items).map Prod.fst := h.map_fst_zip.symm ▸ h.no_nan
  rw [callBuiltin_sortBy, h.sortKeys_eq, Outcome.done_bind, arrange_of_no_nan hnan]
  rfl

/-- A sort by keys, none of them a not-a-number, lists the items in the order of the keys. -/
theorem exists_ranked_of_sortBy {visit : Visit} {e : Expr} {items : List Value} {r : Value}
    (h : callBuiltin visit "sort_by" [.array items, .reference e] = .done r)
    (hnan : ∀ item ∈ items, visit e item ≠ .done (.number .nan)) :
    ∃ keys, Ranked visit e items keys ∧ r = .array (sortItems keys items) := by
  obtain ⟨keys, hkeyed, hsortable⟩ := exists_keys_of_done List.mem_cons_self h
  have hranked : Ranked visit e items keys := by
    refine ⟨hkeyed, hsortable, fun hmem => ?_⟩
    obtain ⟨item, hitem, hvisit⟩ := hkeyed.exists_item hmem
    exact hnan item hitem hvisit
  exact ⟨keys, hranked, Outcome.done.inj (h.symm.trans hranked.callBuiltin_sortBy_eq)⟩

section

variable {items : List Value}

theorem callBuiltin_sort (visit : Visit) (h : Sortable items) :
    callBuiltin visit "sort" [.array items] =
      arrange id "sort" items >>= fun sorted => .done (.array sorted) := by
  have hpasses : Function.Passes [⟨[.arrayOfNumber, .arrayOfString], false⟩] [.array items] := by
    refine Function.passes_singleton_iff.2 ⟨.inl rfl, List.forall_mem_singleton.2 ?_⟩
    rcases h with h | h
    · exact ⟨.arrayOfNumber, List.mem_cons_self,
        .arrayOfNumber fun v hv => Value.kind_eq_number_iff.1 (h v hv)⟩
    · exact ⟨.arrayOfString, List.mem_cons_of_mem _ List.mem_cons_self,
        .arrayOfString fun v hv => Value.kind_eq_string_iff.1 (h v hv)⟩
  have hfind : Function.find? "sort" = some _ := rfl
  exact Function.callBuiltin_of_passes hfind hpasses visit

theorem callBuiltin_sort_of_no_nan (visit : Visit) (h : Sortable items)
    (hnan : .number .nan ∉ items) :
    callBuiltin visit "sort" [.array items] = .done (.array (items.mergeSort keyLE)) := by
  rw [callBuiltin_sort visit h, arrange_of_no_nan (by rwa [List.map_id])]
  rfl

/-- Every item is its own key, so a sort by the item itself is a sort of the items. -/
theorem callBuiltin_sortBy_self (n : Nat) (h : Sortable items) :
    callBuiltin (eval (n + 1)) "sort_by" [.array items, .reference .current] =
      arrange id "sort_by" items >>= fun sorted => .done (.array sorted) := by
  have hkeyed : Keyed (eval (n + 1)) .current items items := List.forall₂_same.2 fun _ _ => rfl
  have hzip : items.zip items = items.map fun v => (v, v) := by
    simpa using List.zip_map' (f := id) (g := id) (l := items)
  rw [callBuiltin_sortBy, sortKeys_eq_done_iff.2 ⟨hkeyed, h⟩, Outcome.done_bind, hzip,
    arrange_map, bind_assoc]
  simp only [Outcome.done_bind, map_snd_pair]
  rfl

end

/-- Both sorts are stable.  A sort by keys, none of them a not-a-number, lists all items of
    the array so that the keys are in the order of the operators, and items with equal keys
    in the order of their places.  A sort of numbers or of strings is one by themselves, and
    there is one unless a not-a-number is among too many of them. -/
theorem sorts_are_stable :
    (∀ (visit : Visit) (e : Expr) (items : List Value) (r : Value),
      callBuiltin visit "sort_by" [.array items, .reference e] = .done r →
      (∀ item ∈ items, visit e item ≠ .done (.number .nan)) →
      ∃ placed : List (Value × Nat), placed.Perm items.zipIdx ∧
        r = .array (placed.map Prod.fst) ∧ placed.Pairwise (Precedes .lessEqual visit e)) ∧
    ∀ (items : List Value), Sortable items →
      (¬ Disordered items → ∃ sorted,
        (∀ visit, callBuiltin visit "sort" [.array items] = .done (.array sorted)) ∧
        ∀ n, callBuiltin (eval (n + 1)) "sort_by" [.array items, .reference .current] =
          .done (.array sorted)) ∧
      ∀ (visit : Visit) (n : Nat) (r : Value),
        callBuiltin visit "sort" [.array items] = .done r ↔
          callBuiltin (eval (n + 1)) "sort_by" [.array items, .reference .current] = .done r := by
  refine ⟨fun visit e items r h hnan => ?_, fun items h => ?_⟩
  · obtain ⟨keys, hranked, rfl⟩ := exists_ranked_of_sortBy h hnan
    obtain ⟨placed, hperm, hplaced, hpairwise⟩ := hranked.exists_sorted
    exact ⟨placed, hperm, by rw [hplaced], hpairwise⟩
  · refine ⟨fun hkeys => ?_, fun visit n r => ?_⟩
    · rcases arrange_outcome id "sort" items with ⟨sorted, hdone, -⟩ | ⟨-, hdisordered⟩
      · refine ⟨sorted, fun visit => ?_, fun n => ?_⟩
        · rw [callBuiltin_sort visit h, hdone, Outcome.done_bind]
        · rw [callBuiltin_sortBy_self n h, (arrange_eq_done_iff_of_name "sort" "sort_by").1 hdone,
            Outcome.done_bind]
      · rw [List.map_id] at hdisordered
        exact absurd hdisordered hkeys
    · rw [callBuiltin_sort visit h, callBuiltin_sortBy_self n h, Outcome.bind_eq_done_iff,
        Outcome.bind_eq_done_iff]
      simp only [arrange_eq_done_iff_of_name "sort" "sort_by"]

/-- Two items with the same key stay in their order. -/
theorem sorts_are_stable_of_tie :
    let first : Value := .array [.string "x", .string "a"]
    let second : Value := .array [.string "x", .string "b"]
    (∀ item ∈ [first, second], eval 1 (.index 0) item ≠ .done (.number .nan)) ∧
      callBuiltin (eval 1) "sort_by" [.array [first, second], .reference (.index 0)] =
        .done (.array [first, second]) := by
  intro first second
  have hnan : ∀ item ∈ [first, second], eval 1 (.index 0) item ≠ .done (.number .nan) := by
    simp only [List.forall_mem_cons]
    exact ⟨nofun, nofun, List.forall_mem_nil _⟩
  obtain ⟨r, hr⟩ : ∃ r, callBuiltin (eval 1) "sort_by"
      [.array [first, second], .reference (.index 0)] = .done r := ⟨_, rfl⟩
  obtain ⟨placed, hperm, rfl, hsorted⟩ := sorts_are_stable.1 _ _ _ _ hr hnan
  refine ⟨hnan, hr.trans ?_⟩
  rcases List.perm_pair.1 hperm with rfl | rfl
  · rfl
  · obtain ⟨-, -, ⟨⟩, ⟨⟩, -, hplace⟩ := List.rel_of_pairwise_cons hsorted List.mem_cons_self
    have hequal : Comparison.equal.apply (.string "x") (.string "x") = .boolean true := by
      simp [Comparison.apply, Value.equal]
    exact absurd (hplace hequal) (by decide)

end JmesPath
