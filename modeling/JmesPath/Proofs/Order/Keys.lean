import Mathlib.Data.List.Forall2
import JmesPath.Eval.Basic
import JmesPath.Proofs.Function.Check
import JmesPath.Proofs.Order.Arrangement

/-! # Keys

Three functions go by keys: they evaluate a reference on each item of an array, and the
results are the keys of the items.  The first key has to be a number or a string, and all
others have to be of its type.  The first item that has no such key decides the error.

* `Keyed`, `Sortable` — items with their keys, and keys that the functions accept
* `sortKeys_cons` — the key of one item
* `sortKeys_some_outcome`, `sortKeys_outcome` — the keys of all items, or the first item that
  has none
* `callBuiltin_sortBy`, `callBuiltin_extremumBy`, `callBuiltin_keyed` — a call is the keys, and
  then something that evaluates nothing
* `keyed_call_outcome` — which calls have a result, and which error the others have
-/

namespace JmesPath

open Builtin

/-! ## Accepted keys -/

/-- Items with their keys, place by place. -/
abbrev Keyed (visit : Visit) (e : Expr) (items keys : List Value) : Prop :=
  List.Forall₂ (fun item key => visit e item = .done key) items keys

/-- Keys of one type, which is that of numbers or that of strings. -/
def Sortable (keys : List Value) : Prop :=
  (∀ key ∈ keys, key.kind = .number) ∨ ∀ key ∈ keys, key.kind = .string

/-- The types that a key may have, once there is a first key or before. -/
def keyKinds : (first? : Option Value.Kind) → List Value.Kind
  | none => [.number, .string]
  | some kind => [kind]

/-- An item has a key of one of some types. -/
def HasKey (visit : Visit) (e : Expr) (kinds : List Value.Kind) (item : Value) : Prop :=
  ∃ key, visit e item = .done key ∧ key.kind ∈ kinds

/-- The error for an item without a key of one of some types: that of its evaluation, or else
    one about the type. -/
def keyFault {α : Type} (name : String) (kinds : List Value.Kind) : Outcome Value → Outcome α
  | .done key => .failed (.keyType name kinds key.kind)
  | .failed fault => .failed fault
  | .unfinished => .unfinished

section

variable {α β : Type} {name : String} {kinds : List Value.Kind} {o : Outcome Value}

theorem keyFault_bind (f : α → Outcome β) :
    (keyFault name kinds o >>= f) = keyFault name kinds o := by
  cases o <;> rfl

theorem keyFault_ne_done (a : α) : keyFault name kinds o ≠ .done a := by
  cases o <;> nofun

end

/-! ## The keys of items -/

section

variable {visit : Visit} {e : Expr} {first? : Option Value.Kind} {item key : Value}
variable {items keys : List Value} {name : String}

theorem sortKeys_cons : sortKeys name visit e first? (item :: items) =
    visit e item >>= fun key =>
      if key.kind ∈ keyKinds first? then
        sortKeys name visit e (some key.kind) items >>= fun keys => .done (key :: keys)
      else .failed (.keyType name (keyKinds first?) key.kind) := by
  cases first? with
  | none => simp [sortKeys, keyKinds]
  | some kind =>
    simp only [sortKeys, keyKinds, List.mem_singleton]
    congr 1
    funext key
    split
    · next hkind => rw [hkind]
    · rfl

/-- An item with a key leaves it to the other items what comes out. -/
theorem sortKeys_cons_of_key (h : visit e item = .done key) (hkind : key.kind ∈ keyKinds first?)
    (name : String) (items : List Value) :
    sortKeys name visit e first? (item :: items) =
      sortKeys name visit e (some key.kind) items >>= fun keys => .done (key :: keys) := by
  rw [sortKeys_cons, h, Outcome.done_bind, if_pos hkind]

/-- An item without a key decides the error. -/
theorem sortKeys_cons_of_not_hasKey (h : ¬ HasKey visit e (keyKinds first?) item) (name : String)
    (items : List Value) : sortKeys name visit e first? (item :: items) =
      keyFault name (keyKinds first?) (visit e item) := by
  rw [sortKeys_cons]
  cases hvisit : visit e item with
  | done key => exact if_neg fun hkind => h ⟨key, hvisit, hkind⟩
  | failed fault => rfl
  | unfinished => rfl

end

/-- Behind a first key: the keys of all items, or the first item that has none of its type. -/
theorem sortKeys_some_outcome (visit : Visit) (e : Expr) (kind : Value.Kind) (items : List Value) :
    (∃ keys, Keyed visit e items keys ∧ (∀ key ∈ keys, key.kind = kind) ∧
      ∀ name, sortKeys name visit e (some kind) items = .done keys) ∨
    ∃ i item, FirstWithout (fun _ => HasKey visit e [kind]) items i item ∧
      ∀ name, sortKeys name visit e (some kind) items = keyFault name [kind] (visit e item) := by
  induction items with
  | nil => exact .inl ⟨[], .nil, List.forall_mem_nil _, fun _ => rfl⟩
  | cons first items ih =>
    by_cases hfirst : HasKey visit e [kind] first
    · obtain ⟨key, hkey, hkind⟩ : HasKey visit e (keyKinds (some kind)) first := id hfirst
      have hcons := sortKeys_cons_of_key hkey hkind
      obtain rfl := List.mem_singleton.1 hkind
      rcases ih with ⟨keys, hkeys, hkinds, hdone⟩ | ⟨i, item, hitem, hfault⟩
      · refine .inl ⟨key :: keys, .cons hkey hkeys, List.forall_mem_cons.2 ⟨rfl, hkinds⟩, ?_⟩
        intro name
        rw [hcons, hdone, Outcome.done_bind]
      · refine .inr ⟨i + 1, item, .cons hfirst hitem, fun name => ?_⟩
        rw [hcons, hfault, keyFault_bind]
    · exact .inr ⟨0, first, .head items hfirst,
        fun name => sortKeys_cons_of_not_hasKey hfirst name items⟩

/-- The types that the key at a place may have: the first key is a number or a string, and
    any other one is of its type. -/
def wantedKinds (visit : Visit) (e : Expr) (items : List Value) : (place : Nat) → List Value.Kind
  | 0 => [.number, .string]
  | _ + 1 =>
    match items.head?.map (visit e) with
    | some (.done first) => [first.kind]
    | _ => []

/-- The item at a place has a key of a type that is wanted there. -/
abbrev HasWantedKey (visit : Visit) (e : Expr) (items : List Value) (place : Nat) (item : Value) :
    Prop :=
  HasKey visit e (wantedKinds visit e items place) item

/-- The keys of all items, or the first item that has none of a type that is wanted. -/
theorem sortKeys_outcome (visit : Visit) (e : Expr) (items : List Value) :
    (∃ keys, Keyed visit e items keys ∧ Sortable keys ∧
      ∀ name, sortKeys name visit e none items = .done keys) ∨
    ∃ i item, FirstWithout (HasWantedKey visit e items) items i item ∧
      ∀ name, sortKeys name visit e none items =
        keyFault name (wantedKinds visit e items i) (visit e item) := by
  cases items with
  | nil => exact .inl ⟨[], .nil, .inl (List.forall_mem_nil _), fun _ => rfl⟩
  | cons first items =>
    by_cases hfirst : HasKey visit e [.number, .string] first
    · obtain ⟨key, hkey, hkind⟩ : HasKey visit e (keyKinds none) first := id hfirst
      have hcons := sortKeys_cons_of_key hkey hkind
      have hwanted (i : Nat) : wantedKinds visit e (first :: items) (i + 1) = [key.kind] := by
        simp only [wantedKinds, List.head?_cons, Option.map_some, hkey]
      rcases sortKeys_some_outcome visit e key.kind items with
        ⟨keys, hkeys, hkinds, hdone⟩ | ⟨i, item, hitem, hfault⟩
      · have hall : ∀ other ∈ key :: keys, other.kind = key.kind :=
          List.forall_mem_cons.2 ⟨rfl, hkinds⟩
        refine .inl ⟨key :: keys, .cons hkey hkeys, ?_, fun name => ?_⟩
        · simp only [keyKinds, List.mem_cons, List.not_mem_nil, or_false] at hkind
          rcases hkind with hnumber | hstring
          · exact .inl fun other hother => (hall other hother).trans hnumber
          · exact .inr fun other hother => (hall other hother).trans hstring
        · rw [hcons, hdone, Outcome.done_bind]
      · have hothers : (fun j => HasWantedKey visit e (first :: items) (j + 1)) =
            fun _ => HasKey visit e [key.kind] := by
          funext j other
          rw [HasWantedKey, hwanted]
        refine .inr ⟨i + 1, item, .cons hfirst (hothers ▸ hitem), fun name => ?_⟩
        rw [hcons, hfault, keyFault_bind, hwanted]
    · exact .inr ⟨0, first, .head items hfirst,
        fun name => sortKeys_cons_of_not_hasKey hfirst name items⟩

theorem exists_mem_of_forall₂ {α β : Type} {R : α → β → Prop} {as : List α} {bs : List β}
    (h : List.Forall₂ R as bs) {a : α} (ha : a ∈ as) : ∃ b ∈ bs, R a b := by
  induction h with
  | nil => cases ha
  | @cons first b _ _ hfirst _ ih =>
    rcases List.mem_cons.1 ha with rfl | ha
    · exact ⟨b, List.mem_cons_self, hfirst⟩
    · obtain ⟨other, hother, hrelated⟩ := ih ha
      exact ⟨other, List.mem_cons_of_mem b hother, hrelated⟩

theorem Keyed.exists_key {visit : Visit} {e : Expr} {items keys : List Value}
    (h : Keyed visit e items keys) {item : Value} (hitem : item ∈ items) :
    ∃ key ∈ keys, visit e item = .done key :=
  exists_mem_of_forall₂ h hitem

theorem Keyed.exists_item {visit : Visit} {e : Expr} {items keys : List Value}
    (h : Keyed visit e items keys) {key : Value} (hkey : key ∈ keys) :
    ∃ item ∈ items, visit e item = .done key :=
  exists_mem_of_forall₂ h.flip hkey

/-- Items with sortable keys have keys of the types that are wanted. -/
theorem Keyed.hasWantedKey {visit : Visit} {e : Expr} {items keys : List Value}
    (hkeys : Keyed visit e items keys) (hsortable : Sortable keys) {i : Nat} {item : Value}
    (hitem : items[i]? = some item) : HasWantedKey visit e items i item := by
  obtain ⟨key, hkey, hvisit⟩ := hkeys.exists_key (List.mem_of_getElem? hitem)
  refine ⟨key, hvisit, ?_⟩
  cases hkeys with
  | nil => cases hitem
  | @cons first firstKey _ _ hfirst _ =>
    cases i with
    | zero => rcases hsortable with h | h <;> simp [wantedKinds, h key hkey]
    | succ i =>
      simp only [wantedKinds, List.head?_cons, Option.map_some, hfirst, List.mem_singleton]
      rcases hsortable with h | h <;> rw [h key hkey, h firstKey List.mem_cons_self]

/-- There are keys exactly if all items have keys and these are sortable. -/
theorem sortKeys_eq_done_iff {visit : Visit} {e : Expr} {items keys : List Value} {name : String} :
    sortKeys name visit e none items = .done keys ↔ Keyed visit e items keys ∧ Sortable keys := by
  rcases sortKeys_outcome visit e items with
    ⟨keys', hkeys', hsortable', hdone⟩ | ⟨i, item, hitem, hfault⟩
  · constructor
    · intro h
      cases (hdone name).symm.trans h
      exact ⟨hkeys', hsortable'⟩
    · rintro ⟨hkeys, -⟩
      obtain rfl := List.right_unique_forall₂' (fun _ _ _ hdone hdone' =>
        Outcome.done.inj (hdone.symm.trans hdone')) hkeys hkeys'
      exact hdone name
  · refine iff_of_false (fun h => ?_) fun ⟨hkeys, hsortable⟩ => ?_
    · rw [hfault] at h
      exact keyFault_ne_done _ h
    · exact hitem.lacks (hkeys.hasWantedKey hsortable hitem.at_place)

/-! ## Calls -/

section

variable (visit : Visit) (e : Expr) (items : List Value)

theorem callBuiltin_sortBy : callBuiltin visit "sort_by" [.array items, .reference e] =
    sortKeys "sort_by" visit e none items >>= fun keys =>
      arrange Prod.fst "sort_by" (keys.zip items) >>= fun sorted =>
        .done (.array (sorted.map Prod.snd)) := rfl

theorem callBuiltin_maxBy : callBuiltin visit "max_by" [.array items, .reference e] =
    sortKeys "max_by" visit e none items >>= fun keys =>
      .done (((extremum .gt (keys.zip items)).map Prod.snd).getD .null) := rfl

theorem callBuiltin_minBy : callBuiltin visit "min_by" [.array items, .reference e] =
    sortKeys "min_by" visit e none items >>= fun keys =>
      .done (((extremum .lt (keys.zip items)).map Prod.snd).getD .null) := rfl

/-- A function that looks for an extreme key does not fail once it has the keys. -/
theorem callBuiltin_extremumBy {name : String} (hname : name ∈ ["max_by", "min_by"]) :
    ∃ result : List Value → Value, callBuiltin visit name [.array items, .reference e] =
      sortKeys name visit e none items >>= fun keys => .done (result keys) := by
  simp only [List.mem_cons, List.not_mem_nil, or_false] at hname
  rcases hname with rfl | rfl
  · exact ⟨_, callBuiltin_maxBy visit e items⟩
  · exact ⟨_, callBuiltin_minBy visit e items⟩

/-- A function that goes by keys has the keys first. -/
theorem callBuiltin_keyed {name : String} (hname : name ∈ ["sort_by", "max_by", "min_by"]) :
    ∃ result : List Value → Outcome Value, callBuiltin visit name [.array items, .reference e] =
      sortKeys name visit e none items >>= result := by
  rcases List.mem_cons.1 hname with rfl | hname
  · exact ⟨_, callBuiltin_sortBy visit e items⟩
  · obtain ⟨result, hcall⟩ := callBuiltin_extremumBy visit e items hname
    exact ⟨_, hcall⟩

variable {visit e items}

theorem exists_keys_of_done {name : String} (hname : name ∈ ["sort_by", "max_by", "min_by"])
    {r : Value} (h : callBuiltin visit name [.array items, .reference e] = .done r) :
    ∃ keys, Keyed visit e items keys ∧ Sortable keys := by
  obtain ⟨result, hcall⟩ := callBuiltin_keyed visit e items hname
  rw [hcall] at h
  obtain ⟨keys, hkeys, -⟩ := Outcome.bind_eq_done_iff.1 h
  exact ⟨keys, sortKeys_eq_done_iff.1 hkeys⟩

/-- With keys, only a sort can still go wrong, and only if it finds no order of them. -/
theorem Keyed.sortBy_outcome {keys : List Value} (hkeys : Keyed visit e items keys)
    (hsortable : Sortable keys) :
    (∃ r, callBuiltin visit "sort_by" [.array items, .reference e] = .done r) ∨
      callBuiltin visit "sort_by" [.array items, .reference e] = .failed (.unordered "sort_by") ∧
        Disordered keys := by
  rw [callBuiltin_sortBy, sortKeys_eq_done_iff.2 ⟨hkeys, hsortable⟩, Outcome.done_bind]
  rcases arrange_outcome Prod.fst "sort_by" (keys.zip items) with
    ⟨sorted, hdone, -⟩ | ⟨hfault, hdisordered⟩
  · rw [hdone]
    exact .inl ⟨_, rfl⟩
  · rw [List.map_fst_zip (Nat.le_of_eq hkeys.length_eq.symm)] at hdisordered
    rw [hfault]
    exact .inr ⟨rfl, hdisordered⟩

/-- A sort that finds no order has disordered keys, or it is the error of an item's
    evaluation. -/
theorem disordered_of_sortBy
    (h : callBuiltin visit "sort_by" [.array items, .reference e] =
      .failed (.unordered "sort_by")) :
    (∃ keys, Keyed visit e items keys ∧ Disordered keys) ∨
      ∃ item ∈ items, visit e item = .failed (.unordered "sort_by") := by
  rcases sortKeys_outcome visit e items with
    ⟨keys, hkeys, hsortable, -⟩ | ⟨i, item, hitem, hfault⟩
  · rcases hkeys.sortBy_outcome hsortable with ⟨r, hr⟩ | ⟨-, hdisordered⟩
    · cases h.symm.trans hr
    · exact .inl ⟨keys, hkeys, hdisordered⟩
  · rw [callBuiltin_sortBy, hfault, keyFault_bind] at h
    refine .inr ⟨item, List.mem_of_getElem? hitem.at_place, ?_⟩
    cases hvisit : visit e item with
    | done key => simp [hvisit, keyFault] at h
    | failed fault =>
      rw [hvisit] at h
      cases h
      rfl
    | unfinished => simp [hvisit, keyFault] at h

end

/-- The largest and the smallest key are found exactly if all items have keys, and these are
    all numbers or all strings.  A sort by such keys has a result, too, unless there is a
    not-a-number among more keys than are inserted: it may then find no order.  Without such
    keys the first item decides that has none of a type that is wanted at its place: all three
    functions have the error of its evaluation, or else one that says in which type the key is
    and in which it should be. -/
theorem keyed_call_outcome (visit : Visit) (e : Expr) (items : List Value) :
    (∀ name ∈ ["max_by", "min_by"],
      (∃ r, callBuiltin visit name [.array items, .reference e] = .done r) ↔
        ∃ keys, Keyed visit e items keys ∧ Sortable keys) ∧
    ((∃ r, callBuiltin visit "sort_by" [.array items, .reference e] = .done r) →
      ∃ keys, Keyed visit e items keys ∧ Sortable keys) ∧
    (∀ keys, Keyed visit e items keys → Sortable keys →
      (∃ r, callBuiltin visit "sort_by" [.array items, .reference e] = .done r) ∨
        callBuiltin visit "sort_by" [.array items, .reference e] =
          .failed (.unordered "sort_by") ∧ Disordered keys) ∧
    ((¬ ∃ keys, Keyed visit e items keys ∧ Sortable keys) →
      ∃ i item, FirstWithout (HasWantedKey visit e items) items i item ∧
        ∀ name ∈ ["sort_by", "max_by", "min_by"],
          callBuiltin visit name [.array items, .reference e] =
            keyFault name (wantedKinds visit e items i) (visit e item)) := by
  refine ⟨fun name hname => ⟨?_, ?_⟩, ?_,
    fun keys hkeys => hkeys.sortBy_outcome, fun hnone => ?_⟩
  · rintro ⟨r, hr⟩
    exact exists_keys_of_done (List.mem_cons_of_mem _ hname) hr
  · rintro ⟨keys, hkeys⟩
    obtain ⟨result, hcall⟩ := callBuiltin_extremumBy visit e items hname
    exact ⟨result keys, by rw [hcall, sortKeys_eq_done_iff.2 hkeys, Outcome.done_bind]⟩
  · rintro ⟨r, hr⟩
    exact exists_keys_of_done List.mem_cons_self hr
  · rcases sortKeys_outcome visit e items with
      ⟨keys, hkeys, hsortable, -⟩ | ⟨i, item, hitem, hfault⟩
    · exact absurd ⟨keys, hkeys, hsortable⟩ hnone
    · refine ⟨i, item, hitem, fun name hname => ?_⟩
      obtain ⟨result, hcall⟩ := callBuiltin_keyed visit e items hname
      rw [hcall, hfault, keyFault_bind]

/-- A string behind a number decides the error, whatever comes behind it. -/
theorem keyed_call_outcome_of_mixed_keys :
    let items : List Value := [.number (.ofInt 1), .string "a", .null]
    (¬ ∃ keys, Keyed (eval 1) .current items keys ∧ Sortable keys) ∧
      callBuiltin (eval 1) "max_by" [.array items, .reference .current] =
        .failed (.keyType "max_by" [.number] .string) := by
  intro items
  have hnone : ¬ ∃ keys, Keyed (eval 1) .current items keys ∧ Sortable keys := by
    intro h
    obtain ⟨r, hr⟩ := ((keyed_call_outcome (eval 1) .current items).1 "max_by" (by simp)).2 h
    cases hr
  refine ⟨hnone, ?_⟩
  obtain ⟨i, item, hitem, hfault⟩ := (keyed_call_outcome (eval 1) .current items).2.2.2 hnone
  match i with
  | 0 =>
    cases hitem.at_place
    exact absurd ⟨_, rfl, List.mem_cons_self⟩ hitem.lacks
  | 1 =>
    cases hitem.at_place
    exact hfault "max_by" (by simp)
  | i + 2 =>
    obtain ⟨key, hkey, hkind⟩ := hitem.before 1 (by omega) _ rfl
    cases hkey
    cases List.mem_singleton.1 hkind

/-- All keys are numbers, and a sort by them has no result. -/
theorem sort_by_falling_numbers_has_no_result :
    Keyed (eval 1) .current fallingNumbers fallingNumbers ∧ Sortable fallingNumbers ∧
      ¬ ∃ r, callBuiltin (eval 1) "sort_by" [.array fallingNumbers, .reference .current] =
        .done r := by
  have hkeyed : Keyed (eval 1) .current fallingNumbers fallingNumbers :=
    List.forall₂_same.2 fun _ _ => rfl
  have hsortable : Sortable fallingNumbers := .inl (by decide +kernel)
  have hkeys : (fallingNumbers.zip fallingNumbers).map Prod.fst = fallingNumbers :=
    List.map_fst_zip (Nat.le_refl _)
  have hfault : arrange Prod.fst "sort_by" (fallingNumbers.zip fallingNumbers) =
      .failed (.unordered "sort_by") :=
    arrange_of_no_order (hkeys.symm ▸ consistent_fallingNumbers) (by decide)
  refine ⟨hkeyed, hsortable, ?_⟩
  rw [callBuiltin_sortBy, sortKeys_eq_done_iff.2 ⟨hkeyed, hsortable⟩, Outcome.done_bind, hfault]
  rintro ⟨r, ⟨⟩⟩

example : (EvalError.keyType "sort_by" [.number, .string] .boolean).message =
    "sort_by() expected keys of type number|string but received type boolean" := by decide

end JmesPath
