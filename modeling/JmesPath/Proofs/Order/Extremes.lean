import Mathlib.Data.List.Induction
import JmesPath.Proofs.Order.Sorting

/-! # Extreme items

The item with the smallest key and the one with the largest key are found in one pass.  Both
are the earliest of their kind, and both are at an end of a stable sort.

* `FirstBest` — the earliest entry that no other entry is ahead of
* `firstBest_extremum` — the pass finds it
* `Leads` — the earliest item with an extreme key
* `leads_head_sorted`, `leads_last_sorted` — the ends of a sort
* `keyed_builtins_agree` — what the functions that go by keys have to do with one another
-/

namespace JmesPath

open Builtin

/-! ## One pass -/

/-- An order that one key can be ahead in: the ascending or the descending one. -/
abbrev Strict (wanted : Ordering) : Prop := wanted = .lt ∨ wanted = .gt

section

variable {wanted : Ordering} {x y z : List Int}

theorem Strict.asymm (hwanted : Strict wanted) (h : compare x y = wanted) :
    compare y x ≠ wanted := by
  rw [compare_swap x, h]
  rcases hwanted with rfl | rfl <;> decide

theorem Strict.eq_of_ne (hwanted : Strict wanted) (hxy : compare x y ≠ wanted)
    (hyx : compare y x ≠ wanted) : compare x y = .eq := by
  rw [compare_swap x] at hyx
  rcases hwanted with rfl | rfl <;> cases hcompare : compare x y <;> simp_all

/-- What is ahead of a key is ahead of all keys that are not ahead of that one. -/
theorem Strict.ahead (hwanted : Strict wanted) (hxy : compare x y = wanted)
    (hzy : compare z y ≠ wanted) : compare x z = wanted := by
  rw [compare_swap y] at hzy
  rcases hwanted with rfl | rfl
  · refine Std.TransCmp.lt_of_lt_of_isLE hxy ?_
    cases hyz : compare y z <;> simp [hyz] at hzy ⊢
  · refine Std.TransCmp.gt_of_gt_of_isGE hxy ?_
    cases hyz : compare y z <;> simp [hyz] at hzy ⊢

variable {α : Type}

/-- The entry at a place is one that no other entry is ahead of, and the first such one. -/
structure FirstBest (wanted : Ordering) (keyed : List (Value × α)) (i : Nat) (p : Value × α) :
    Prop where
  at_place : keyed[i]? = some p
  best : ∀ q ∈ keyed, compare q.1.rank p.1.rank ≠ wanted
  first : ∀ j < i, ∀ q, keyed[j]? = some q → compare p.1.rank q.1.rank = wanted

theorem FirstBest.single (hwanted : Strict wanted) (p : Value × α) :
    FirstBest wanted [p] 0 p := by
  refine ⟨rfl, fun q hq => ?_, fun j hj => absurd hj j.not_lt_zero⟩
  rw [List.mem_singleton.1 hq]
  exact fun hself => hwanted.asymm hself hself

/-- Another entry at the end is not ahead of the best one. -/
theorem FirstBest.keep {keyed : List (Value × α)} {i : Nat} {p last : Value × α}
    (h : FirstBest wanted keyed i p) (hlast : compare last.1.rank p.1.rank ≠ wanted) :
    FirstBest wanted (keyed ++ [last]) i p := by
  have hi : i < keyed.length := (List.getElem?_eq_some_iff.1 h.at_place).1
  refine ⟨?_, fun q hq => ?_, fun j hj q hq => ?_⟩
  · rw [List.getElem?_append_left hi, h.at_place]
  · rcases List.mem_append.1 hq with hq | hq
    · exact h.best q hq
    · rwa [List.mem_singleton.1 hq]
  · rw [List.getElem?_append_left (Nat.lt_trans hj hi)] at hq
    exact h.first j hj q hq

/-- Another entry at the end is ahead of the best one, and so of all. -/
theorem FirstBest.change (hwanted : Strict wanted) {keyed : List (Value × α)} {i : Nat}
    {p last : Value × α} (h : FirstBest wanted keyed i p)
    (hlast : compare last.1.rank p.1.rank = wanted) :
    FirstBest wanted (keyed ++ [last]) keyed.length last := by
  have hahead {q : Value × α} (hq : q ∈ keyed) : compare last.1.rank q.1.rank = wanted :=
    hwanted.ahead hlast (h.best q hq)
  refine ⟨?_, fun q hq => ?_, fun j hj q hq => ?_⟩
  · exact List.getElem?_concat_length
  · rcases List.mem_append.1 hq with hq | hq
    · exact hwanted.asymm (hahead hq)
    · rw [List.mem_singleton.1 hq]
      exact fun hself => hwanted.asymm hself hself
  · rw [List.getElem?_append_left hj] at hq
    exact hahead (List.mem_of_getElem? hq)

theorem extremum_append (wanted : Ordering) (keyed : List (Value × α)) (last : Value × α) :
    extremum wanted (keyed ++ [last]) =
      match extremum wanted keyed with
      | some p => if keyOrder last.1 p.1 != wanted then some p else some last
      | none => some last := by
  rw [extremum, List.foldl_append]
  rfl

/-- The pass finds the first entry that no other one is ahead of. -/
theorem firstBest_extremum (hwanted : Strict wanted) {keyed : List (Value × α)}
    (halike : ∀ p ∈ keyed, ∀ q ∈ keyed, Alike p.1 q.1) :
    (keyed = [] ∧ extremum wanted keyed = none) ∨
      ∃ i p, extremum wanted keyed = some p ∧ FirstBest wanted keyed i p := by
  -- The pass goes from the front to the end, so the last entry is the one to be compared.
  induction keyed using List.reverseRecOn with
  | nil => exact .inl ⟨rfl, rfl⟩
  | append_singleton keyed last ih =>
    rw [extremum_append]
    rcases ih fun p hp q hq => halike p (List.mem_append_left _ hp) q (List.mem_append_left _ hq)
      with ⟨rfl, hnone⟩ | ⟨i, p, hp, hbest⟩
    · exact .inr ⟨0, last, by rw [hnone], .single hwanted last⟩
    · have horder : keyOrder last.1 p.1 = compare last.1.rank p.1.rank := by
        refine (halike _ (by simp) _ ?_).keyOrder_eq
        exact List.mem_append_left _ (List.mem_of_getElem? hbest.at_place)
      simp only [hp, horder]
      by_cases hlast : compare last.1.rank p.1.rank = wanted
      · exact .inr ⟨_, last, by simp [hlast], hbest.change hwanted hlast⟩
      · exact .inr ⟨i, p, by simp [hlast], hbest.keep hlast⟩

end

/-! ## Extreme items -/

/-- An item with its place has an extreme key, and is the first such one: a comparison holds
    between its key and those of all others, and it precedes the others with an equal key. -/
def Leads (op : Comparison) (visit : Visit) (e : Expr) (items : List Value) (p : Value × Nat) :
    Prop :=
  p ∈ items.zipIdx ∧ ∀ q ∈ items.zipIdx, q ≠ p → Precedes op visit e p q

/-- The operators that go with one of the two orders. -/
inductive Extreme : Ordering → Comparison → Prop
  | smallest : Extreme .lt .lessEqual
  | largest : Extreme .gt .greaterEqual

theorem Extreme.strict {wanted : Ordering} {op : Comparison} (h : Extreme wanted op) :
    Strict wanted := by
  cases h with
  | smallest => exact .inl rfl
  | largest => exact .inr rfl

/-- The operator holds unless the other key is ahead. -/
theorem Extreme.apply_iff {wanted : Ordering} {op : Comparison} (h : Extreme wanted op)
    {a b : Value} (hab : Alike a b) :
    op.apply a b = .boolean true ↔ compare b.rank a.rank ≠ wanted := by
  rw [compare_swap a.rank]
  cases h with
  | smallest =>
    rw [hab.lessEqual]
    cases compare a.rank b.rank <;> simp
  | largest =>
    rw [hab.greaterEqual]
    cases compare a.rank b.rank <;> simp

section

variable {visit : Visit} {e : Expr} {items keys : List Value} {wanted : Ordering} {op : Comparison}

theorem Ranked.alike_of_mem (h : Ranked visit e items keys) {x y a b : Value} (hx : x ∈ items)
    (hy : y ∈ items) (ha : visit e x = .done a) (hb : visit e y = .done b) : Alike a b := by
  obtain ⟨a', ha', hx'⟩ := h.keyed.exists_key hx
  obtain ⟨b', hb', hy'⟩ := h.keyed.exists_key hy
  cases ha.symm.trans hx'
  cases hb.symm.trans hy'
  exact h.sortable.alike h.no_nan ha' hb'

theorem mem_of_mem_zipIdx {p : Value × Nat} (h : p ∈ items.zipIdx) : p.1 ∈ items :=
  List.mem_of_getElem? (List.mem_zipIdx_iff_getElem?.1 h)

theorem lt_length_of_mem_zipIdx {p : Value × Nat} (h : p ∈ items.zipIdx) : p.2 < items.length :=
  (List.getElem?_eq_some_iff.1 (List.mem_zipIdx_iff_getElem?.1 h)).1

theorem Leads.unique (h : Ranked visit e items keys) (hop : Extreme wanted op) {p q : Value × Nat}
    (hp : Leads op visit e items p) (hq : Leads op visit e items q) : p = q := by
  refine Classical.byContradiction fun hne => ?_
  obtain ⟨a, b, ha, hb, hab, hfirst⟩ := hp.2 q hq.1 (Ne.symm hne)
  obtain ⟨b', a', hb', ha', hba, hfirst'⟩ := hq.2 p hp.1 hne
  cases ha.symm.trans ha'
  cases hb.symm.trans hb'
  have halike := h.alike_of_mem (mem_of_mem_zipIdx hp.1) (mem_of_mem_zipIdx hq.1) ha hb
  have halike' := h.alike_of_mem (mem_of_mem_zipIdx hq.1) (mem_of_mem_zipIdx hp.1) hb ha
  have hequal (hwanted : Strict wanted) := hwanted.eq_of_ne ((hop.apply_iff halike').1 hba)
    ((hop.apply_iff halike).1 hab)
  have hpq := hfirst (halike.equal_iff.2 (hequal hop.strict))
  have hqp := hfirst' (halike'.equal_iff.2 (by rw [compare_swap a.rank, hequal hop.strict]; rfl))
  omega

/-- The entry that the pass finds is an item that leads. -/
theorem Ranked.leads_of_firstBest (h : Ranked visit e items keys) (hop : Extreme wanted op)
    {i : Nat} {p : Value × Value} (hbest : FirstBest wanted (keys.zip items) i p) :
    Leads op visit e items (p.2, i) := by
  have hitems (j : Nat) : items[j]? = ((keys.zip items)[j]?).map Prod.snd := by
    rw [← List.getElem?_map, h.map_snd_zip]
  have hp := List.mem_of_getElem? hbest.at_place
  refine ⟨List.mem_zipIdx_iff_getElem?.2 (by rw [hitems, hbest.at_place]; rfl), fun q hq hne => ?_⟩
  obtain ⟨r, hr, hitem⟩ := Option.map_eq_some_iff.1 (hitems q.2 ▸ List.mem_zipIdx_iff_getElem?.1 hq)
  have hmem := List.mem_of_getElem? hr
  have halike := h.alike_of_mem_zip hp hmem
  refine ⟨p.1, r.1, h.visit_of_mem_zip hp, hitem ▸ h.visit_of_mem_zip hmem,
    (hop.apply_iff halike).2 (hbest.best r hmem), fun hequal => ?_⟩
  have heq := halike.equal_iff.1 hequal
  rcases Nat.lt_trichotomy q.2 i with hlt | rfl | hgt
  · have hahead := hbest.first q.2 hlt r hr
    rw [heq] at hahead
    rcases hop.strict with rfl | rfl <;> cases hahead
  · cases hr.symm.trans hbest.at_place
    exact (hne (Prod.ext hitem.symm rfl)).elim
  · exact hgt

/-- The item with an extreme key leads, and without items there is none. -/
theorem Ranked.extremum_cases (h : Ranked visit e items keys) (hop : Extreme wanted op) :
    (items = [] ∧ ((extremum wanted (keys.zip items)).map Prod.snd).getD .null = .null) ∨
      ∃ p, Leads op visit e items p ∧
        ((extremum wanted (keys.zip items)).map Prod.snd).getD .null = p.1 := by
  rcases firstBest_extremum hop.strict fun p hp q hq => h.alike_of_mem_zip hp hq with
    ⟨hempty, hnone⟩ | ⟨i, p, hp, hbest⟩
  · have hitems := h.map_snd_zip
    rw [hempty] at hitems
    exact .inl ⟨hitems.symm, by rw [hnone]; rfl⟩
  · exact .inr ⟨(p.2, i), h.leads_of_firstBest hop hbest, by rw [hp]; rfl⟩

/-! ## The ends of a sort -/

/-- The first item of a stable sort leads by the smallest key. -/
theorem leads_head_sorted {p : Value × Nat} {placed : List (Value × Nat)}
    (hperm : (p :: placed).Perm items.zipIdx)
    (hsorted : (p :: placed).Pairwise (Precedes .lessEqual visit e)) :
    Leads .lessEqual visit e items p := by
  refine ⟨hperm.mem_iff.1 List.mem_cons_self, fun q hq hne => ?_⟩
  have hmem := (List.mem_cons.1 (hperm.mem_iff.2 hq)).resolve_left hne
  exact (List.pairwise_cons.1 hsorted).1 q hmem

theorem mem_zipIdx_reverse {p : Value × Nat} (h : p ∈ items.zipIdx) :
    (p.1, items.length - 1 - p.2) ∈ items.reverse.zipIdx := by
  have hitem := List.mem_zipIdx_iff_getElem?.1 h
  have hlt := lt_length_of_mem_zipIdx h
  rw [List.mem_zipIdx_iff_getElem?, List.getElem?_reverse (by omega), ← hitem]
  congr 1
  omega

/-- Backwards, the item that comes later with a key that is not smaller comes first with one
    that is not larger. -/
theorem Ranked.precedes_backwards (h : Ranked visit e items keys) {p q : Value × Nat} {n : Nat}
    (hp : p.1 ∈ items) (hq : q.1 ∈ items) (hplt : p.2 < n)
    (hle : Precedes .lessEqual visit e (q.1, n - 1 - q.2) p) :
    Precedes .greaterEqual visit e (p.1, n - 1 - p.2) q := by
  obtain ⟨b, a, hb, ha, hle, hfirst⟩ := hle
  have halike := h.alike_of_mem hp hq ha hb
  have halike' := h.alike_of_mem hq hp hb ha
  have hswap := compare_swap a.rank b.rank
  refine ⟨a, b, ha, hb, (Extreme.largest.apply_iff halike).2 fun hgt => ?_, fun hequal => ?_⟩
  · rw [halike'.lessEqual, hgt] at hle
    cases hle
  · rw [halike.equal_iff.1 hequal] at hswap
    have hbehind := hfirst (halike'.equal_iff.2 hswap)
    dsimp only at hbehind ⊢
    omega

/-- The last item of a stable sort of the array backwards leads by the largest key. -/
theorem Ranked.leads_last_sorted (h : Ranked visit e items keys) {p : Value × Nat}
    {placed : List (Value × Nat)} (hperm : (placed ++ [p]).Perm items.reverse.zipIdx)
    (hsorted : (placed ++ [p]).Pairwise (Precedes .lessEqual visit e)) :
    Leads .greaterEqual visit e items (p.1, items.length - 1 - p.2) := by
  have hmem : p ∈ items.reverse.zipIdx :=
    hperm.mem_iff.1 (List.mem_append_right _ List.mem_cons_self)
  have hp : (p.1, items.length - 1 - p.2) ∈ items.zipIdx := by
    simpa only [List.length_reverse, List.reverse_reverse] using mem_zipIdx_reverse hmem
  have hplt : p.2 < items.length := by simpa using lt_length_of_mem_zipIdx hmem
  refine ⟨hp, fun q hq hne => ?_⟩
  have hother : (q.1, items.length - 1 - q.2) ∈ placed := by
    rcases List.mem_append.1 (hperm.mem_iff.2 (mem_zipIdx_reverse hq)) with hother | hlast
    · exact hother
    · -- The last one is the item itself, counted from the other end.
      have hqlt := lt_length_of_mem_zipIdx hq
      refine (hne (Prod.ext ?_ ?_)).elim
      · rw [← List.mem_singleton.1 hlast]
      · rw [← List.mem_singleton.1 hlast]
        dsimp only
        omega
  exact h.precedes_backwards (List.mem_reverse.1 (mem_of_mem_zipIdx hmem))
    (mem_of_mem_zipIdx hq) hplt ((List.pairwise_append.1 hsorted).2.2 _ hother p List.mem_cons_self)

end

/-! ## Functions that go by keys -/

section

variable {visit : Visit} {e : Expr} {items keys : List Value}

theorem Keyed.mapM_eq (h : Keyed visit e items keys) : items.mapM (visit e) = .done keys := by
  induction h with
  | nil => rfl
  | cons hfirst _ ih => rw [List.mapM_cons, hfirst, Outcome.done_bind, ih]; rfl

theorem Keyed.callBuiltin_map (h : Keyed visit e items keys) :
    callBuiltin visit "map" [.reference e, .array items] = .done (.array keys) := by
  have hcall : callBuiltin visit "map" [.reference e, .array items] =
      items.mapM (visit e) >>= fun results => .done (.array results) := rfl
  rw [hcall, h.mapM_eq, Outcome.done_bind]

theorem callBuiltin_reverse (visit : Visit) (items : List Value) :
    callBuiltin visit "reverse" [.array items] = .done (.array items.reverse) := rfl

namespace Ranked

variable (h : Ranked visit e items keys)
include h

theorem reverse : Ranked visit e items.reverse keys.reverse where
  keyed := List.forall₂_reverse_iff.2 h.keyed
  sortable := h.sortable.imp (fun hall key hkey => hall key (List.mem_reverse.1 hkey))
    fun hall key hkey => hall key (List.mem_reverse.1 hkey)
  no_nan := fun hmem => h.no_nan (List.mem_reverse.1 hmem)

/-- The keys of the sorted items are the sorted keys. -/
theorem keyed_sorted : Keyed visit e (sortItems keys items) (keys.mergeSort keyLE) := by
  have hkeys : (sortEntries (keys.zip items)).map Prod.fst = keys.mergeSort keyLE := by
    rw [sortEntries, List.map_mergeSort (f := Prod.fst) (s := keyLE) fun _ _ _ _ => rfl,
      h.map_fst_zip]
  rw [← hkeys, Keyed, sortItems, List.forall₂_map_left_iff, List.forall₂_map_right_iff,
    List.forall₂_same]
  exact fun p hp => h.visit_of_mem_zip (List.mem_mergeSort.1 hp)

theorem callBuiltin_minBy_eq : callBuiltin visit "min_by" [.array items, .reference e] =
    .done (((extremum .lt (keys.zip items)).map Prod.snd).getD .null) := by
  rw [callBuiltin_minBy, h.sortKeys_eq, Outcome.done_bind]

theorem callBuiltin_maxBy_eq : callBuiltin visit "max_by" [.array items, .reference e] =
    .done (((extremum .gt (keys.zip items)).map Prod.snd).getD .null) := by
  rw [callBuiltin_maxBy, h.sortKeys_eq, Outcome.done_bind]

/-- The first item of a sort is the one with the smallest key. -/
theorem callBuiltin_minBy_head :
    callBuiltin visit "min_by" [.array items, .reference e] =
      .done ((sortItems keys items).head?.getD .null) := by
  -- Both are items that lead, and there is only one such item.
  obtain ⟨placed, hperm, hplaced, hsorted⟩ := h.exists_sorted
  rw [h.callBuiltin_minBy_eq, hplaced]
  congr 1
  rcases h.extremum_cases .smallest with ⟨rfl, hnull⟩ | ⟨p, hp, hvalue⟩
  · rw [hnull, List.perm_nil.1 hperm]
    rfl
  · cases placed with
    | nil => exact absurd (hperm.mem_iff.2 hp.1) List.not_mem_nil
    | cons q placed =>
      rw [hvalue, (leads_head_sorted hperm hsorted).unique h .smallest hp]
      rfl

/-- The last item of a sort of the array backwards is the one with the largest key. -/
theorem callBuiltin_maxBy_last :
    callBuiltin visit "max_by" [.array items, .reference e] =
      .done ((sortItems keys.reverse items.reverse).getLast?.getD .null) := by
  obtain ⟨placed, hperm, hplaced, hsorted⟩ := h.reverse.exists_sorted
  rw [h.callBuiltin_maxBy_eq, hplaced]
  congr 1
  rcases h.extremum_cases .largest with ⟨rfl, hnull⟩ | ⟨p, hp, hvalue⟩
  · rw [hnull, List.perm_nil.1 hperm]
    rfl
  · rcases List.eq_nil_or_concat placed with rfl | ⟨others, q, rfl⟩
    · exact absurd (hperm.mem_iff.2 (mem_zipIdx_reverse hp.1)) List.not_mem_nil
    · rw [List.concat_eq_append] at hperm hsorted ⊢
      have hq := (h.leads_last_sorted hperm hsorted).unique h .largest hp
      rw [hvalue, ← hq, List.map_append, List.map_singleton, List.getLast?_concat]
      rfl

end Ranked

end

/-- The functions that go by keys agree with one another, if no key is a not-a-number.  The
    keys of the sorted items are the sorted keys.  The item with the smallest key is the first
    one of the sorted array, and the item with the largest key the last one of the array that
    is sorted backwards.  Both are the earliest ones with their keys, and both are `null` if
    there are no items. -/
theorem keyed_builtins_agree {visit : Visit} {e : Expr} {items : List Value} {r : Value}
    (h : callBuiltin visit "sort_by" [.array items, .reference e] = .done r)
    (hnan : ∀ item ∈ items, visit e item ≠ .done (.number .nan)) :
    (∃ keys, callBuiltin visit "map" [.reference e, r] = .done keys ∧
      (callBuiltin visit "map" [.reference e, .array items] >>= fun all =>
        callBuiltin visit "sort" [all]) = .done keys) ∧
    (∃ sorted, r = .array sorted ∧
      callBuiltin visit "min_by" [.array items, .reference e] =
        .done (sorted.head?.getD .null)) ∧
    (∃ sorted, (callBuiltin visit "reverse" [.array items] >>= fun reversed =>
        callBuiltin visit "sort_by" [reversed, .reference e]) = .done (.array sorted) ∧
      callBuiltin visit "max_by" [.array items, .reference e] =
        .done (sorted.getLast?.getD .null)) ∧
    (items = [] → callBuiltin visit "min_by" [.array items, .reference e] = .done .null ∧
      callBuiltin visit "max_by" [.array items, .reference e] = .done .null) ∧
    (items ≠ [] →
      (∃ p, Leads .lessEqual visit e items p ∧
        callBuiltin visit "min_by" [.array items, .reference e] = .done p.1) ∧
      ∃ p, Leads .greaterEqual visit e items p ∧
        callBuiltin visit "max_by" [.array items, .reference e] = .done p.1) := by
  obtain ⟨keys, hranked, rfl⟩ := exists_ranked_of_sortBy h hnan
  refine ⟨⟨_, hranked.keyed_sorted.callBuiltin_map, ?_⟩, ⟨_, rfl, hranked.callBuiltin_minBy_head⟩,
    ⟨_, ?_, hranked.callBuiltin_maxBy_last⟩, ?_, fun hne => ⟨?_, ?_⟩⟩
  · rw [hranked.keyed.callBuiltin_map, Outcome.done_bind,
      callBuiltin_sort_of_no_nan visit hranked.sortable hranked.no_nan]
  · rw [callBuiltin_reverse, Outcome.done_bind, hranked.reverse.callBuiltin_sortBy_eq]
  · rintro rfl
    exact ⟨rfl, rfl⟩
  · obtain ⟨p, hp, hvalue⟩ := (hranked.extremum_cases .smallest).resolve_left fun h => hne h.1
    exact ⟨p, hp, by rw [hranked.callBuiltin_minBy_eq, hvalue]⟩
  · obtain ⟨p, hp, hvalue⟩ := (hranked.extremum_cases .largest).resolve_left fun h => hne h.1
    exact ⟨p, hp, by rw [hranked.callBuiltin_maxBy_eq, hvalue]⟩

/-- Two pairs of items with the same key: the one of each pair that comes first in the array is
    at an end of a sort. -/
theorem keyed_builtins_agree_of_ties :
    let item (key name : String) : Value := .array [.string key, .string name]
    let items := [item "y" "a", item "x" "b", item "x" "c", item "y" "d"]
    let sortBy (items : List Value) :=
      callBuiltin (eval 1) "sort_by" [.array items, .reference (.index 0)]
    (∀ item ∈ items, eval 1 (.index 0) item ≠ .done (.number .nan)) ∧
      (∃ sorted, sortBy items = .done (.array sorted) ∧ sorted.head?.getD .null = item "x" "b") ∧
      ∃ sorted, sortBy items.reverse = .done (.array sorted) ∧
        sorted.getLast?.getD .null = item "y" "a" := by
  intro item items sortBy
  have hnan : ∀ item ∈ items, eval 1 (.index 0) item ≠ .done (.number .nan) := by
    simp only [items, List.forall_mem_cons]
    exact ⟨nofun, nofun, nofun, nofun, List.forall_mem_nil _⟩
  have hmin : callBuiltin (eval 1) "min_by" [.array items, .reference (.index 0)] =
      .done (item "x" "b") := by rfl
  have hmax : callBuiltin (eval 1) "max_by" [.array items, .reference (.index 0)] =
      .done (item "y" "a") := by rfl
  obtain ⟨r, hr⟩ : ∃ r, sortBy items = .done r := ⟨_, rfl⟩
  obtain ⟨-, ⟨sorted, rfl, hfirst⟩, ⟨backwards, hbackwards, hlast⟩, -⟩ :=
    keyed_builtins_agree hr hnan
  exact ⟨hnan, ⟨sorted, hr, Outcome.done.inj (hfirst.symm.trans hmin)⟩,
    backwards, hbackwards, Outcome.done.inj (hlast.symm.trans hmax)⟩

end JmesPath
