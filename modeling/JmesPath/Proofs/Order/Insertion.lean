import JmesPath.Proofs.Order.Sorting

/-! # Sorting by insertion

A few items are sorted by insertion, whatever their keys are.  Where these are in an order, the
insertions come to the same list as merging does.

* `pairwise_insertItem` — an insertion behind all items whose keys are not greater
* `insertionSort_eq_sortEntries`, `insertionSort_eq_mergeSort` — keys in an order
* `insertionSort_of_equal` — keys that all count as equal
* `arrange_of_few` — all keys of a few items
-/

namespace JmesPath

open Builtin

section

variable {α : Type}

theorem InOrder.asymm {p q : (Value × α) × Nat} (hpq : InOrder p q) : ¬ InOrder q p := by
  intro hqp
  have hswap := compare_swap p.1.1.rank q.1.1.rank
  cases hcompare : compare p.1.1.rank q.1.1.rank with
  | lt => simp [InOrder, hswap, hcompare] at hqp
  | eq =>
    rw [hcompare] at hswap
    exact Nat.lt_asymm (hpq.2 hcompare) (hqp.2 hswap)
  | gt => simp [InOrder, hcompare] at hpq

/-- An entry with the last place is inserted into a list in the order of a stable sort, which is
    back to front. -/
theorem pairwise_insertItem {item : (Value × α) × Nat} {sorted : List ((Value × α) × Nat)}
    (hsorted : sorted.Pairwise fun later earlier => InOrder earlier later)
    (halike : ∀ p ∈ sorted, Alike item.1.1 p.1.1) (hplace : ∀ p ∈ sorted, p.2 < item.2) :
    (insertItem (Prod.fst ∘ Prod.fst) item sorted).Pairwise
      fun later earlier => InOrder earlier later := by
  induction sorted with
  | nil => exact List.pairwise_singleton _ _
  | cons last others ih =>
    obtain ⟨hlast, hothers⟩ := List.pairwise_cons.1 hsorted
    obtain ⟨hlastAlike, halike⟩ := List.forall_mem_cons.1 halike
    obtain ⟨hlastPlace, hplace⟩ := List.forall_mem_cons.1 hplace
    simp only [insertItem, Function.comp_apply, hlastAlike.keyOrder_eq]
    split
    · next hless =>
      refine List.pairwise_cons.2 ⟨fun p hp => ?_, ih hothers halike hplace⟩
      rcases List.mem_cons.1 ((perm_insertItem item others).mem_iff.1 hp) with rfl | hp
      · exact ⟨by simp [hless], by simp [hless]⟩
      · exact hlast p hp
    · next hnotLess =>
      have hle : (compare last.1.1.rank item.1.1.rank).isLE = true := by
        rw [compare_swap item.1.1.rank]
        cases hcompare : compare item.1.1.rank last.1.1.rank with
        | lt => exact absurd hcompare hnotLess
        | eq | gt => rfl
      refine List.pairwise_cons.2 ⟨List.forall_mem_cons.2 ⟨⟨hle, fun _ => hlastPlace⟩, ?_⟩, hsorted⟩
      exact fun p hp => ⟨Std.TransCmp.isLE_trans (hlast p hp).1 hle, fun _ => hplace p hp⟩

theorem pairwise_foldl_insertItem {keyed : List (Value × α)}
    (halike : ∀ p ∈ keyed, ∀ q ∈ keyed, Alike p.1 q.1) {place : Nat}
    {sorted : List ((Value × α) × Nat)}
    (hsorted : sorted.Pairwise fun later earlier => InOrder earlier later)
    (hbefore : ∀ p ∈ sorted, p.2 < place ∧ ∀ q ∈ keyed, Alike q.1 p.1.1) :
    ((keyed.zipIdx place).foldl (fun sorted item => insertItem (Prod.fst ∘ Prod.fst) item sorted)
      sorted).Pairwise fun later earlier => InOrder earlier later := by
  induction keyed generalizing place sorted with
  | nil => exact hsorted
  | cons first keyed ih =>
    obtain ⟨hfirst, hothers⟩ := List.forall_mem_cons.1 halike
    rw [List.zipIdx_cons, List.foldl_cons]
    refine ih (fun p hp q hq => hothers p hp q (List.mem_cons_of_mem _ hq))
      (pairwise_insertItem hsorted (fun p hp => (hbefore p hp).2 first List.mem_cons_self)
        fun p hp => (hbefore p hp).1) fun p hp => ?_
    rcases List.mem_cons.1 ((perm_insertItem _ sorted).mem_iff.1 hp) with rfl | hp
    · exact ⟨Nat.lt_succ_self place, fun q hq => hothers q hq first List.mem_cons_self⟩
    · obtain ⟨hplace, hp⟩ := hbefore p hp
      exact ⟨Nat.lt_succ_of_lt hplace, fun q hq => hp q (List.mem_cons_of_mem _ hq)⟩

/-- Entries with keys in an order come out of the insertions as out of a sort. -/
theorem insertionSort_eq_sortEntries {keyed : List (Value × α)}
    (halike : ∀ p ∈ keyed, ∀ q ∈ keyed, Alike p.1 q.1) :
    insertionSort Prod.fst keyed = sortEntries keyed := by
  obtain ⟨placed, hperm, hplaced, hpairwise⟩ := exists_placed halike
  have hinserted : (insertionSort (Prod.fst ∘ Prod.fst) keyed.zipIdx).Pairwise InOrder :=
    List.pairwise_reverse.2 (pairwise_foldl_insertItem halike .nil nofun)
  -- Places make the order strict, so there is only one list of the entries in that order.
  have hsame : insertionSort (Prod.fst ∘ Prod.fst) keyed.zipIdx = placed :=
    List.Perm.eq_of_pairwise (fun p q _ _ hpq hqp => absurd hqp hpq.asymm) hinserted hpairwise
      ((perm_insertionSort _).trans hperm.symm)
  calc insertionSort Prod.fst keyed
      = insertionSort Prod.fst (keyed.zipIdx.map Prod.fst) := by rw [List.zipIdx_map_fst]
    _ = placed.map Prod.fst := by rw [insertionSort_map, hsame]
    _ = sortEntries keyed := hplaced

variable {key : α → Value} {items : List α}

/-- Keys that all count as equal leave the items as they are. -/
theorem insertionSort_of_equal
    (h : ∀ a ∈ items, ∀ b ∈ items, keyOrder (key a) (key b) = .eq) :
    insertionSort key items = items := by
  have hfold (front back : List α) (hitems : items = front.reverse ++ back) :
      back.foldl (fun sorted item => insertItem key item sorted) front = back.reverse ++ front := by
    induction back generalizing front with
    | nil => rfl
    | cons item back ih =>
      have hinsert : insertItem key item front = item :: front := by
        cases front with
        | nil => rfl
        | cons last others =>
          have hequal : keyOrder (key item) (key last) = .eq :=
            h item (by simp [hitems]) last (by simp [hitems])
          rw [insertItem, hequal]
          rfl
      rw [List.foldl_cons, hinsert, ih (item :: front) (by simp [hitems])]
      simp
  rw [insertionSort, hfold [] items rfl, List.append_nil, List.reverse_reverse]

/-- Items with keys in an order come out of the insertions as they come out of merging. -/
theorem insertionSort_eq_mergeSort (h : Sortable (items.map key))
    (hnan : .number .nan ∉ items.map key) :
    insertionSort key items = items.mergeSort fun a b => keyLE (key a) (key b) := by
  have halike : ∀ p ∈ items.map (fun v => (key v, v)), ∀ q ∈ items.map (fun v => (key v, v)),
      Alike p.1 q.1 := by
    simp only [List.forall_mem_map]
    exact fun v hv w hw => h.alike hnan (List.mem_map_of_mem hv) (List.mem_map_of_mem hw)
  have hmerged : (items.mergeSort fun a b => keyLE (key a) (key b)).map (fun v => (key v, v)) =
      sortEntries (items.map fun v => (key v, v)) :=
    List.map_mergeSort fun _ _ _ _ => rfl
  rw [← map_snd_pair key (insertionSort key items), ← map_snd_pair key (items.mergeSort _), hmerged,
    ← insertionSort_eq_sortEntries halike, insertionSort_map]
  rfl

/-- A few items are sorted by insertion, whatever their keys are. -/
theorem arrange_of_few (name : String) (h : Sortable (items.map key))
    (hfew : items.length ≤ insertionLimit) :
    arrange key name items = .done (insertionSort key items) := by
  by_cases hnan : .number .nan ∈ items.map key
  · rw [arrange, if_pos hfew]
    split
    · next hconsistent =>
      have hequal : ∀ a ∈ items, ∀ b ∈ items, keyOrder (key a) (key b) = .eq := by
        simpa only [List.forall_mem_map] using (consistent_iff_of_nan hnan).1 hconsistent
      have hsorted : items.Pairwise fun a b => keyLE (key a) (key b) = true :=
        List.pairwise_of_forall_mem_list fun a ha b hb => by rw [keyLE, hequal a ha b hb]; rfl
      rw [insertionSort_of_equal hequal, List.mergeSort_of_pairwise hsorted]
    · rfl
  · rw [arrange_of_no_nan hnan, insertionSort_eq_mergeSort h hnan]

end

end JmesPath
