import JmesPath.Proofs.Eval.Elements
import JmesPath.Proofs.Grammar.Composition
import JmesPath.Proofs.NestingLimit

/-! # A query on each element

A query behind an ampersand is not evaluated but handed to the function, which evaluates it on
each element of an array.  A projection does the same without a function in between, and drops
what is null.

* `referred_closed`, `current_closed` — the two arguments, as they are read
* `compile_map` — the text of a call
* `gets_map` — the outcome of a call
* `map_text` — the text, and a projection of the same query
-/

namespace JmesPath

namespace Rules

open Scanner

variable {limit : Nat}

/-- A query in parentheses behind an ampersand is read as a reference to its tree. -/
theorem referred_closed (q : Query limit) :
    Closed (Expression (limit + 2) 0) ('&' :: q.grouped) (.ref q.tree) := by
  intro rest ts hrest hstops
  obtain ⟨us, hspelled, hread⟩ := grouped_closed 0 q rest ts hrest hstops
  have hword : Spelled ['&'] [.ampersand] := .word rfl .nil
  have hbreaks : Breaks (q.grouped ++ rest) := breaks_cons.2 ⟨by decide, by decide⟩
  exact ⟨.ampersand :: us, hword.append hbreaks hspelled, _, _, _, _, rfl, .ref hread,
    climb_of_stops _ _ hstops⟩

theorem current_closed (levels : Nat) :
    Closed (Expression (levels + 1) 0) ['@'] .current := by
  intro rest ts hrest hstops
  exact ⟨.current :: ts, .single rfl hrest, _, _, _, _, rfl, .current ts,
    climb_of_stops _ _ hstops⟩

/-- The name of the function. -/
def mapName : Identifier := ⟨'m', ['a', 'p'], rfl, by simp [continuesName]⟩

theorem compile_map (q : Query limit) :
    compile (limit + 4) ("map(&".toList ++ (q.grouped ++ ", @)".toList)) =
      .ok (.call "map" [.ref q.tree, .current]) := by
  let args : List (List Char × Expr) := [('&' :: q.grouped, .ref q.tree), (['@'], .current)]
  have hargs : ∀ a ∈ args, ∀ d ∈ [',', ')'],
      ClosedBefore d (Expression (limit + 2) 0) a.1 a.2 := by
    refine List.forall_mem_cons.2 ⟨fun d _ => (referred_closed q).before d, ?_⟩
    exact List.forall_mem_singleton.2 fun d _ => (current_closed _).before d
  have htext : "map(&".toList ++ (q.grouped ++ ", @)".toList) =
      mapName.text ++ '(' :: (Form.joined (args.map Prod.fst) ++ [')']) := by
    simp [Form.joined, args, mapName, Identifier.text]
  have hname : mapName.string = "map" := by decide
  rw [htext, compile_called mapName args hargs, hname]
  rfl

end Rules

/-! ## Outcomes -/

theorem callBuiltin_map (visit : Visit) (e : Expr) (items : List Value) :
    callBuiltin visit "map" [.reference e, .array items] =
      Value.array <$> items.mapM (visit e) := rfl

/-- The function has the results on all elements, or the error on the first one that has no
    result. -/
theorem gets_map {e arg : Expr} {v : Value} {items : List Value}
    (harg : Gets arg v (.done (.array items))) (o : Outcome Value) :
    Gets (.call "map" [.ref e, arg]) v o ↔ Gathers e items .array o := by
  have hstep (visit : Visit) : step visit (.call "map" [.ref e, arg]) v =
      visit (.ref e) v >>= fun a => visit arg v >>= fun b => callBuiltin visit "map" [a, b] := by
    simp [step, List.mapM_cons]
  rw [← reaches_step_iff]
  simp only [hstep]
  rw [reaches_ask_of_done (gets_of_returns (gets_ref e) v), reaches_ask_of_done harg]
  simp only [callBuiltin_map]
  exact reaches_mapM_iff

/-- A query behind an ampersand, given to `map`, has its results on all elements of an array,
    place by place, or its error on the first element that it has no result on.  A projection
    of the query has the same results without those that are null, or the same error.  Both
    end where the query ends on each element. -/
theorem map_text {limit : Nat} (q : Query limit) :
    ∃ e, CompilesTo ("map(&".toList ++ (q.grouped ++ ", @)".toList)) e ∧ ∀ items,
      (∀ o, Gets e (.array items) o ↔ Gathers q.tree items .array o) ∧
      (∀ o, Gets (.project .identity q.tree) (.array items) o ↔
        Gathers q.tree items (fun rs => .array (present rs)) o) ∧
      ((∀ item ∈ items, Ends q.tree item) →
        Ends e (.array items) ∧ Ends (.project .identity q.tree) (.array items)) := by
  refine ⟨_, .of_compile (Rules.compile_map q), fun items => ?_⟩
  have hmap := gets_map (e := q.tree) (gets_of_returns gets_current (.array items))
  have hproject (o : Outcome Value) : Gets (.project .identity q.tree) (.array items) o ↔
      Gathers q.tree items (fun rs => .array (present rs)) o := by
    rw [gets_project_identity]
    rfl
  refine ⟨hmap, hproject, fun hends => ⟨?_, ?_⟩⟩
  · obtain ⟨o, ho⟩ := exists_gathers hends
    exact ((hmap o).2 ho).ends
  · obtain ⟨o, ho⟩ := exists_gathers hends
    exact ((hproject o).2 ho).ends

/-- What has no member of a name has `null` for it, and a projection drops that. -/
theorem map_text_of_missing_names :
    let items : List Value := [.string "a", .object [("a", .boolean true)]]
    (∀ item ∈ items, Ends (.field "a") item) ∧
      ∃ e, CompilesTo "map(&(a), @)".toList e ∧
        Ends e (.array items) ∧ Ends (.project .identity (.field "a")) (.array items) ∧
        Gets e (.array items) (.done (.array [.null, .boolean true])) ∧
        Gets (.project .identity (.field "a")) (.array items) (.done (.array [.boolean true])) := by
  intro items
  let a : Query 1 := ⟨['a'], .field "a", by cbv⟩
  have hfield {v r : Value} (h : eval 1 (.field "a") v = .done r) :
      Gets (.field "a") v (.done r) := ⟨by simp, 1, h⟩
  have hresults : Results (.field "a") items [.null, .boolean true] :=
    .cons (hfield rfl) (.cons (hfield rfl) .nil)
  have hends : ∀ item ∈ items, Ends (.field "a") item := by
    refine List.forall_mem_cons.2 ⟨?_, List.forall_mem_singleton.2 ?_⟩
    · exact (hfield (r := .null) rfl).ends
    · exact (hfield (r := .boolean true) rfl).ends
  obtain ⟨e, hcompiles, hall⟩ := map_text a
  obtain ⟨hmap, hproject, hended⟩ := hall items
  exact ⟨hends, e, hcompiles, (hended hends).1, (hended hends).2, (hmap _).2 (.results hresults),
    (hproject _).2 (.results hresults)⟩

end JmesPath
