import Mathlib
import JmesPath.Program
import JmesPath.Proofs.Number.Exact

/-! # The query for the value at hand

The query `@` gives back the document that it is asked of, and so shows what a document
loses on its way into the data of a query and out of it.

* `Json.numbers` — the numbers of a document
* `Json.Alike` — documents that are the same but for their numbers
* `alike_toJson_ofJson_iff` — there and back, a document changes in its numbers only
* `identity_query` — numbers keep their values, all but one of them
-/

namespace JmesPath

mutual
/-- The numbers of a document, at any depth. -/
def Json.numbers : Json → List Json.Number
  | .null => []
  | .boolean _ => []
  | .number n => [n]
  | .string _ => []
  | .array items => Json.itemNumbers items
  | .object members => Json.memberNumbers members

def Json.itemNumbers : List Json → List Json.Number
  | [] => []
  | j :: js => Json.numbers j ++ Json.itemNumbers js

def Json.memberNumbers : List (String × Json) → List Json.Number
  | [] => []
  | (_, j) :: js => Json.numbers j ++ Json.memberNumbers js
end

/-- Documents with the same structure, the same texts and the same keys in the same order,
    and with related numbers. -/
inductive Json.Alike (R : Json.Number → Json.Number → Prop) : Json → Json → Prop
  | null : Alike R .null .null
  | boolean (b : Bool) : Alike R (.boolean b) (.boolean b)
  | number {n n' : Json.Number} : R n n' → Alike R (.number n) (.number n')
  | string (s : String) : Alike R (.string s) (.string s)
  | array {items items' : List Json} :
      List.Forall₂ (Alike R) items items' → Alike R (.array items) (.array items')
  | object {members members' : Members Json} :
      members.keys = members'.keys → List.Forall₂ (Alike R) members.values members'.values →
      Alike R (.object members) (.object members')

namespace Json

variable {R : Json.Number → Json.Number → Prop}

theorem alike_number_iff {n : Json.Number} {j : Json} :
    Alike R (.number n) j ↔ ∃ n', j = .number n' ∧ R n n' := by
  constructor
  · intro h
    cases h with
    | number h => exact ⟨_, rfl, h⟩
  · rintro ⟨n', rfl, h⟩
    exact .number h

theorem alike_array_iff {items items' : List Json} :
    Alike R (.array items) (.array items') ↔ List.Forall₂ (Alike R) items items' := by
  refine ⟨fun h => ?_, .array⟩
  cases h with
  | array h => exact h

theorem alike_object_iff {members members' : Members Json} (hkeys : members.keys = members'.keys) :
    Alike R (.object members) (.object members') ↔
      List.Forall₂ (Alike R) members.values members'.values := by
  refine ⟨fun h => ?_, .object hkeys⟩
  cases h with
  | object _ h => exact h

theorem keys_toJson_ofJson (members : Members Json) :
    members.keys = Members.keys (Value.toJsonMembers (Value.ofJsonMembers members)) := by
  induction members with
  | nil => rfl
  | cons m ms ih => exact congrArg (m.1 :: ·) ih

/-- What becomes of a number is a number again, and related to it. -/
def Kept (R : Json.Number → Json.Number → Prop) (n : Json.Number) : Prop :=
  ∃ n', Json.ofNumber n.toBinary64 = .number n' ∧ R n n'

mutual
/-- There and back, a document changes in its numbers only. -/
theorem alike_toJson_ofJson_iff (j : Json) :
    Alike R j (Value.toJson (Value.ofJson j)) ↔ ∀ n ∈ j.numbers, Kept R n := by
  cases j with
  | null => exact iff_of_true .null (List.forall_mem_nil _)
  | boolean b => exact iff_of_true (.boolean b) (List.forall_mem_nil _)
  | number n =>
    rw [Value.ofJson, Value.toJson, alike_number_iff, numbers, List.forall_mem_singleton]
    rfl
  | string s => exact iff_of_true (.string s) (List.forall_mem_nil _)
  | array items =>
    rw [Value.ofJson, Value.toJson, alike_array_iff, numbers]
    exact alike_items_iff items
  | object members =>
    rw [Value.ofJson, Value.toJson, alike_object_iff (keys_toJson_ofJson members), numbers]
    exact alike_members_iff members

theorem alike_items_iff (items : List Json) :
    List.Forall₂ (Alike R) items (Value.toJsonItems (Value.ofJsonItems items)) ↔
      ∀ n ∈ itemNumbers items, Kept R n := by
  cases items with
  | nil => exact iff_of_true .nil (List.forall_mem_nil _)
  | cons j js =>
    rw [Value.ofJsonItems, Value.toJsonItems, List.forall₂_cons, itemNumbers,
      List.forall_mem_append, alike_toJson_ofJson_iff j, alike_items_iff js]

theorem alike_members_iff (members : Members Json) :
    List.Forall₂ (Alike R) members.values
        (Members.values (Value.toJsonMembers (Value.ofJsonMembers members))) ↔
      ∀ n ∈ memberNumbers members, Kept R n := by
  match members with
  | [] => exact iff_of_true .nil (List.forall_mem_nil _)
  | (k, j) :: ms =>
    have hms := alike_members_iff ms
    rw [Value.ofJsonMembers, Value.toJsonMembers, Members.values, Members.values, List.map_cons,
      List.map_cons, List.forall₂_cons, memberNumbers, List.forall_mem_append,
      alike_toJson_ofJson_iff j]
    exact and_congr_right' hms
end

end Json

theorem searchJson_current (j : Json) :
    searchJson j "@" = .ok (Value.toJson (Value.ofJson j)) := by
  have hcompile : compile defaultLimit "@".toList = .ok .current := by cbv
  have hprogram : Program.ofSource defaultLimit "@" = .ok ⟨"@", .current⟩ := by
    rw [Program.ofSource, hcompile]
  have hvisits : visitLimit = 999999999 + 1 := rfl
  have hrun (v : Value) : Program.run ⟨"@", .current⟩ v = .done v := by
    rw [Program.run, hvisits]
    rfl
  rw [searchJson, search, hprogram]
  simp only [hrun]
  rfl

/-- A number that is read without rounding becomes a number again.  It keeps its value as long
    as this is not the bound of the 64 bits with a sign. -/
theorem Json.Number.Exact.written {n : Json.Number} (h : n.Exact) :
    ∃ n', Json.ofNumber n.toBinary64 = .number n' ∧ n'.value? = n.value?.map documentValue ∧
      (n'.value? = n.value? ↔ n.value? ≠ some signedBound) := by
  have hread := value?_toBinary64 h
  obtain ⟨v, -, hv, -⟩ := h
  obtain ⟨n', hn', hvalue⟩ := ofNumber_eq (hread.trans hv)
  refine ⟨n', hn', by rw [hvalue, hv, Option.map_some], ?_⟩
  rw [hvalue, hv, Option.some_inj, documentValue_eq_iff, ne_eq, ne_eq, Option.some_inj]

theorem Json.Number.Exact.kept_map {n : Json.Number} (h : n.Exact) :
    Json.Kept (fun n n' => n'.value? = n.value?.map documentValue) n := by
  obtain ⟨n', hn', hvalue, -⟩ := h.written
  exact ⟨n', hn', hvalue⟩

theorem Json.Number.Exact.kept_iff {n : Json.Number} (h : n.Exact) :
    Json.Kept (fun n n' => n'.value? = n.value?) n ↔ n.value? ≠ some signedBound := by
  obtain ⟨n', hn', -, hiff⟩ := h.written
  refine Iff.trans ⟨?_, fun hvalue => ⟨n', hn', hvalue⟩⟩ hiff
  rintro ⟨n'', hn'', hvalue⟩
  cases hn'.symm.trans hn''
  exact hvalue

/-- On a document whose numbers are binary64 numbers, the query `@` gives a document that is
    the same but for its numbers.  These keep their values, except that the bound of the 64
    bits with a sign becomes the largest integer below it; so the document loses nothing
    exactly if none of its numbers is that bound. -/
theorem identity_query {j : Json} (h : ∀ n ∈ j.numbers, n.Exact) :
    ∃ j', searchJson j "@" = .ok j' ∧
      Json.Alike (fun n n' => n'.value? = n.value?.map documentValue) j j' ∧
      (Json.Alike (fun n n' => n'.value? = n.value?) j j' ↔
        ∀ n ∈ j.numbers, n.value? ≠ some signedBound) := by
  refine ⟨_, searchJson_current j, ?_, ?_⟩
  · exact (Json.alike_toJson_ofJson_iff j).2 fun n hn => (h n hn).kept_map
  · exact (Json.alike_toJson_ofJson_iff j).trans (forall₂_congr fun n hn => (h n hn).kept_iff)

/-- The smallest integer of 64 bits with a sign, a half and a negative zero keep their values. -/
theorem identity_query_of_limits :
    let j : Json := .object [("low", .number (.integer (-2 ^ 63))),
      ("rest", .array [.number (.float (.finite false (1 <<< 1073) (by decide +kernel))),
        .string "half", .number (.float (.zero true))])]
    (∀ n ∈ j.numbers, n.Exact) ∧ ∃ j', searchJson j "@" = .ok j' ∧
      Json.Alike (fun n n' => n'.value? = n.value?) j j' := by
  intro j
  have hexact : ∀ n ∈ j.numbers, n.Exact := by
    simp only [j, Json.numbers, Json.memberNumbers, Json.itemNumbers, List.append_nil,
      List.nil_append, List.cons_append, List.forall_mem_cons]
    exact ⟨exact_integer (by decide +kernel), exact_float rfl, exact_float rfl,
      List.forall_mem_nil _⟩
  obtain ⟨j', hj', -, hiff⟩ := identity_query hexact
  refine ⟨hexact, j', hj', hiff.2 ?_⟩
  decide +kernel

/-- The bound of the 64 bits with a sign is a document that loses its value. -/
theorem bound_is_lost :
    let j : Json := .number (.integer (2 ^ 63))
    (∀ n ∈ j.numbers, n.Exact) ∧ searchJson j "@" = .ok (.number (.integer (2 ^ 63 - 1))) ∧
      ¬ ∃ j', searchJson j "@" = .ok j' ∧ Json.Alike (fun n n' => n'.value? = n.value?) j j' := by
  intro j
  have hresult : searchJson j "@" = .ok (.number (.integer (2 ^ 63 - 1))) := by
    have hwhole : (Binary64.ofInt (2 ^ 63)).integer? = some (2 ^ 63) := by decide +kernel
    rw [searchJson_current, Value.ofJson, Value.toJson, Json.Number.toBinary64, Json.ofNumber,
      hwhole]
    rfl
  refine ⟨?_, hresult, ?_⟩
  · exact List.forall_mem_singleton.2 (exact_integer (by decide +kernel))
  · rintro ⟨j', hj', hkept⟩
    cases hresult.symm.trans hj'
    obtain ⟨n', hn', hvalue⟩ := Json.alike_number_iff.1 hkept
    cases hn'
    exact absurd hvalue (by decide +kernel)

end JmesPath
