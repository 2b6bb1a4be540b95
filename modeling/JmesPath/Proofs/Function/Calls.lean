import Mathlib.Data.List.Nodup
import JmesPath.Proofs.Function.Bodies
import JmesPath.Proofs.Order.Keys

/-! # Calls of functions

After the check of its arguments, a call has nothing to complain about their number and their
types: it has a result, unless a reference is evaluated on an item and this has none, or gives a
key that cannot be sorted by, or unless there is no order to sort in.

* `checked_call_plain`, `checked_call_applier` — calls without and with references
* `sortBy_of_unordered` — why a sort by keys finds no order
* `checked_calls` — all functions
-/

namespace JmesPath

open JmesPath.Function

/-- A function that evaluates no reference has a result for all arguments that pass, unless it
    is a sort. -/
theorem checked_call_plain {name : String} {params : List Param} {args : List Value}
    {P : Value → Prop} {o : Outcome Value} (h : Yields (PlainFault name params args) P o)
    (hpasses : Passes params args) :
    (∃ r, o = .done r) ∨ name = "sort" ∧ o = .failed (.unordered name) ∧
      ∃ items, .array items ∈ args ∧ Disordered items := by
  rcases h.outcome with ⟨r, hdone, -⟩ | ⟨error, hfailed, hfault⟩
  · exact .inl ⟨r, hdone⟩
  · cases hfault with
    | misfit hmisfit =>
      cases hmisfit with
      | intro _ _ _ hfails => exact absurd hpasses hfails
    | unordered hname hitems hdisordered =>
      exact .inr ⟨hname, hfailed, _, hitems, hdisordered⟩

/-- A function that evaluates a reference leaves it to the visits of the items and to their
    keys what comes out. -/
theorem checked_call_applier {name : String} {params : List Param} {body : Body}
    {args : List Value} (h : Applies name params body args) (hpasses : Passes params args)
    (visit : Visit) :
    ∃ r items, .reference r ∈ args ∧ .array items ∈ args ∧
      ((∃ v, body visit args = .done v) ∨
        (∃ error, KeyFault name error ∧ body visit args = .failed error) ∨
        ∃ item ∈ items, (∀ v, visit r item ≠ .done v) ∧ body visit args = visit r item) := by
  cases h with
  | applied r items hr hitems hasks =>
    refine ⟨r, items, hr, hitems, ?_⟩
    refine ((hasks inherited_true fun _ _ => trivial).outcome fun _ _ _ _ _ => trivial).imp_right
      (Or.imp_right ?_)
    rintro ⟨e, item, ⟨rfl, hitem⟩, hvisit⟩
    exact ⟨item, hitem, hvisit⟩
  | misfit hmisfit =>
    cases hmisfit with
    | intro _ _ _ hfails => exact absurd hpasses hfails

/-- The table has every function under its name. -/
theorem Function.find?_of_mem {f : Function} (hf : f ∈ builtins) :
    Function.find? f.name = some f := by
  have hnames : (builtins.map Function.name).Nodup := by decide
  cases hfind : Function.find? f.name with
  | none => exact absurd (List.find?_eq_none.1 hfind f hf) (by simp)
  | some g =>
    have hg : g ∈ builtins := List.mem_of_find?_eq_some hfind
    rw [List.inj_on_of_nodup_map hnames hg hf (name_of_find? hfind)]

theorem args_of_passes_keyed {args : List Value} (h : Passes keyedParams args) :
    ∃ items r, args = [.array items, .reference r] := by
  obtain ⟨first, second, rfl⟩ : ∃ first second, args = [first, second] := by
    refine List.length_eq_two.1 ?_
    rcases h.1 with hcount | ⟨-, p, hlast, hvariadic⟩
    · exact hcount
    · cases hlast
      cases hvariadic
  obtain ⟨t, ht, hfirst⟩ := h.has 0 rfl
  obtain ⟨u, hu, hsecond⟩ := h.has 1 rfl
  cases List.mem_singleton.1 ht
  cases List.mem_singleton.1 hu
  cases hfirst with
  | array items =>
    cases hsecond with
    | reference r => exact ⟨items, r, rfl⟩

/-- A sort by keys that finds no order has disordered keys, or it is the error of an item's
    evaluation. -/
theorem sortBy_of_unordered {f : Function} (hf : f ∈ builtins) (hname : f.name = "sort_by")
    {visit : Visit} {args : List Value} (hpasses : Passes f.params args) {r : Expr}
    {items : List Value} (hr : .reference r ∈ args) (hitems : .array items ∈ args)
    (h : f.body visit args = .failed (.unordered f.name)) :
    (∃ keys, Keyed visit r items keys ∧ Disordered keys) ∨
      ∃ item ∈ items, (∀ v, visit r item ≠ .done v) ∧ f.body visit args = visit r item := by
  have hfind : Function.find? "sort_by" = some f := hname ▸ Function.find?_of_mem hf
  have hcall := callBuiltin_of_passes hfind hpasses visit
  cases hfind
  obtain ⟨items', r', rfl⟩ := args_of_passes_keyed hpasses
  simp only [List.mem_cons, List.not_mem_nil, or_false, reduceCtorEq, false_or,
    Value.reference.injEq, Value.array.injEq] at hr hitems
  subst hr hitems
  refine (disordered_of_sortBy (hcall.trans h)).imp_right ?_
  rintro ⟨item, hitem, hvisit⟩
  exact ⟨item, hitem, by simp [hvisit], h.trans hvisit.symm⟩

/-- What the functions of the language do with arguments that pass the check.  Those that take
    no reference have a result, unless a sort finds no order because a not-a-number is among
    too many items; otherwise a call fails exactly if the check does, and with the error of the
    check.  The four others have a result, or the outcome of a visit of an item that has no
    result, or, except for `map`, an error about a key, or they are a sort that finds no order
    of the keys. -/
theorem checked_calls {f : Function} (hf : f ∈ builtins) (visit : Visit) (args : List Value) :
    (f.takesReference = true ↔ f.name ∈ ["map", "sort_by", "max_by", "min_by"]) ∧
    (f.takesReference = false →
      (check f.name f.params args = none → (∃ r, f.body visit args = .done r) ∨
        f.name = "sort" ∧ f.body visit args = .failed (.unordered f.name) ∧
          ∃ items, .array items ∈ args ∧ Disordered items) ∧
      ((f.name = "sort" → ∀ items, .array items ∈ args → ¬ Disordered items) →
        ∀ error, f.call visit args = .failed error ↔ check f.name f.params args = some error) ∧
      f.call visit args ≠ .unfinished) ∧
    (f.takesReference = true → check f.name f.params args = none →
      ∃ r items, .reference r ∈ args ∧ .array items ∈ args ∧
        ((∃ v, f.body visit args = .done v) ∨
          (∃ item ∈ items, (∀ v, visit r item ≠ .done v) ∧ f.body visit args = visit r item) ∨
          (f.name ∈ ["sort_by", "max_by", "min_by"] ∧ ∃ expected actual,
            f.body visit args = .failed (.keyType f.name expected actual)) ∨
          (f.name = "sort_by" ∧ f.body visit args = .failed (.unordered f.name) ∧
            ∃ keys, Keyed visit r items keys ∧ Disordered keys))) := by
  rcases builtins_agree f hf with ⟨hplain, hname, body, hbody, hyields⟩ | ⟨htakes, hname, happlies⟩
  · have hresult (hcheck : check f.name f.params args = none) :=
      checked_call_plain (hyields inherited_true (fun _ _ => trivial))
        (check_eq_none_iff.1 hcheck)
    have hbody' : f.body visit args = body args := by rw [hbody]
    refine ⟨iff_of_false (by simp [hplain]) hname, fun _ => ⟨?_, fun hsort error => ?_, ?_⟩,
      by simp [hplain]⟩
    · rw [hbody']
      exact hresult
    · cases hcheck : check f.name f.params args with
      | some fault => simp [call, hcheck]
      | none =>
        rcases hresult hcheck with ⟨r, hr⟩ | ⟨hname, -, items, hitems, hdisordered⟩
        · simp [call, hcheck, hbody', hr]
        · exact absurd hdisordered (hsort hname items hitems)
    · cases hcheck : check f.name f.params args with
      | some fault => simp [call, hcheck]
      | none =>
        rcases hresult hcheck with ⟨r, hr⟩ | ⟨-, hfailed, -⟩
        · simp [call, hcheck, hbody', hr]
        · simp [call, hcheck, hbody', hfailed]
  · refine ⟨iff_of_true htakes hname, by simp [htakes], fun _ hcheck => ?_⟩
    have hpasses := check_eq_none_iff.1 hcheck
    obtain ⟨r, items, hr, hitems, houtcome⟩ :=
      checked_call_applier (happlies args) hpasses visit
    refine ⟨r, items, hr, hitems, houtcome.imp_right ?_⟩
    rintro (⟨error, hkeyFault, hfault⟩ | hvisit)
    · cases hkeyFault with
      | keyType expected actual hkeyed => exact .inr (.inl ⟨hkeyed, expected, actual, hfault⟩)
      | unordered hsort =>
        rcases sortBy_of_unordered hf hsort hpasses hr hitems hfault with hkeys | hvisit
        · exact .inr (.inr ⟨hsort, hfault, hkeys⟩)
        · exact .inl hvisit
    · exact .inl hvisit

/-- Strings that are joined, and an item without a key to sort by. -/
theorem checked_calls_of_join_and_sort :
    (∃ f ∈ builtins, f.name = "join" ∧
      let args : List Value := [.string "-", .array [.string "a", .string "b"]]
      check f.name f.params args = none ∧ ∃ r, f.body (eval 1) args = .done r) ∧
    ∃ f ∈ builtins, f.name = "sort_by" ∧ f.takesReference = true ∧
      let args : List Value := [.array [.string "a", .null], .reference .current]
      check f.name f.params args = none ∧ ∃ expected actual,
        f.body (eval 1) args = .failed (.keyType f.name expected actual) := by
  refine ⟨?_, ?_⟩
  · obtain ⟨f, hf⟩ : ∃ f, Function.find? "join" = some f := ⟨_, rfl⟩
    have hmem : f ∈ builtins := List.mem_of_find?_eq_some hf
    cases hf
    refine ⟨_, hmem, rfl, rfl, ?_⟩
    rcases ((checked_calls hmem (eval 1) [.string "-", .array [.string "a", .string "b"]]).2.1
      rfl).1 rfl with hresult | ⟨hsort, -⟩
    · exact hresult
    · exact absurd hsort (by decide)
  · obtain ⟨f, hf⟩ : ∃ f, Function.find? "sort_by" = some f := ⟨_, rfl⟩
    have hmem : f ∈ builtins := List.mem_of_find?_eq_some hf
    cases hf
    refine ⟨_, hmem, rfl, rfl, rfl, ?_⟩
    obtain ⟨r, items, hr, hitems, ⟨v, hv⟩ | ⟨item, -, hvisit, -⟩ |
        ⟨-, hkey⟩ | ⟨-, hfault, -⟩⟩ :=
      (checked_calls hmem (eval 1) [.array [.string "a", .null], .reference .current]).2.2 rfl rfl
    · cases hv
    · simp only [List.mem_cons, List.not_mem_nil, or_false, reduceCtorEq, false_or,
        Value.reference.injEq] at hr
      subst hr
      exact absurd rfl (hvisit item)
    · exact hkey
    · cases hfault

theorem Builtin.sort_array (items : List Value) : Builtin.sort [.array items] =
    Builtin.arrange id "sort" items >>= fun sorted => .done (.array sorted) := rfl

/-- Numbers pass the check of a sort, and the sort has no result. -/
theorem sort_of_falling_numbers_has_no_result :
    ∃ f ∈ builtins, f.takesReference = false ∧
      check f.name f.params [.array fallingNumbers] = none ∧
      ¬ ∃ r, f.body (eval 1) [.array fallingNumbers] = .done r := by
  obtain ⟨f, hf⟩ : ∃ f, Function.find? "sort" = some f := ⟨_, rfl⟩
  have hmem : f ∈ builtins := List.mem_of_find?_eq_some hf
  cases hf
  have hfault : Builtin.arrange id "sort" fallingNumbers = .failed (.unordered "sort") :=
    arrange_of_no_order ((List.map_id _).symm ▸ consistent_fallingNumbers) (by decide)
  refine ⟨_, hmem, rfl, by decide +kernel, ?_⟩
  dsimp only
  rw [Builtin.sort_array, hfault]
  rintro ⟨r, ⟨⟩⟩

example : (builtins.filter fun f => !f.takesReference).length = 22 ∧ builtins.length = 26 := by
  decide

end JmesPath
