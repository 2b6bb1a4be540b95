import JmesPath.Proofs.Eval.Sequence
import JmesPath.Proofs.Function.Check
import JmesPath.Proofs.Members

/-! # Merging

A merge of objects has the keys of all of them, each one where it first came, with what the last
object has for it that has the key.  A merge of merges is one merge, and an object of results is
a merge of objects with one member each.

* `keys_merged`, `get?_merged`, `merged_append` — objects inserted one after the other
* `merge_objects` — a call with objects
* `gets_multiHash` — an object of results
* `merge_right_biased` — keys, values and the two laws
-/

namespace JmesPath

open Filter

/-! ## Objects inserted one after the other -/

namespace Members

variable {α : Type}

theorem keys_merged (objects : List (Members α)) :
    keys (objects.foldl insertAll []) = (objects.flatMap keys).eraseDups := by
  have hflatten : keys objects.flatten = objects.flatMap keys := List.map_flatten
  rw [foldl_insertAll, ← hflatten]
  exact keys_ofList _

theorem nodup_keys_merged (objects : List (Members α)) :
    (keys (objects.foldl insertAll [])).Nodup := by
  rw [foldl_insertAll]
  exact nodup_keys_ofList _

/-- A key has what the last object has for it. -/
theorem get?_merged {objects : List (Members α)} (h : ∀ o ∈ objects, (keys o).Nodup)
    (members : Members α) (key : String) :
    get? (objects.foldl insertAll members) key =
      (objects.reverse.findSome? fun o => get? o key).or (get? members key) := by
  induction objects generalizing members with
  | nil => rfl
  | cons o objects ih =>
    obtain ⟨ho, hobjects⟩ := List.forall_mem_cons.1 h
    rw [List.foldl_cons, ih hobjects, get?_insertAll _ ho, List.reverse_cons,
      List.findSome?_append, Option.or_assoc]
    have hone : [o].findSome? (fun o => get? o key) = get? o key := by
      simp only [List.findSome?_cons, List.findSome?_nil]
      cases get? o key <;> rfl
    rw [hone]

/-- Two groups of objects can each be made into one object first. -/
theorem merged_append (objects others : List (Members α)) :
    [objects.foldl insertAll [], others.foldl insertAll []].foldl insertAll [] =
      (objects ++ others).foldl insertAll [] := by
  have hown : insertAll [] (insertAll [] objects.flatten) = insertAll [] objects.flatten :=
    ofList_of_nodup (nodup_keys_ofList _)
  simp only [List.foldl_append, foldl_insertAll, List.foldl_cons, List.foldl_nil, hown]
  exact insertAll_ofList (nodup_keys_ofList _) _

/-- Members are objects with one member each. -/
theorem merged_singletons (pairs : Members α) :
    (pairs.map fun p => [p]).foldl insertAll [] = ofList pairs := by
  rw [foldl_insertAll, ← List.flatMap_def, List.flatMap_singleton']
  rfl

end Members

/-! ## Calls -/

/-- All values of a list hold something of one type. -/
theorem View.each_map {α : Type} (view : View α) (name : String) {f : α → Value}
    (hf : ∀ a, view.content? (f a) = some a) (as : List α) :
    view.each name (as.map f) = .done as := by
  suffices hplaces : ∀ i, ((as.map f).zipIdx i).mapM (fun p => view.of name p.2 p.1) =
      Outcome.done as from hplaces 0
  induction as with
  | nil => exact fun _ => rfl
  | cons a as ih =>
    intro i
    rw [List.map_cons, List.zipIdx_cons, List.mapM_cons, ih (i + 1)]
    simp only [View.of, hf, Outcome.done_bind, Outcome.pure_eq]

/-- Objects can be given to a function that takes one or more objects. -/
theorem passes_objects {objects : List (Members Value)} (h : objects ≠ []) :
    Function.Passes [⟨[.object], true⟩] (objects.map Value.object) := by
  have hlength : 1 ≤ (objects.map Value.object).length := by
    rw [List.length_map]
    exact List.length_pos_of_ne_nil h
  refine Function.passes_singleton_iff.2 ⟨.inr ⟨hlength, _, rfl, rfl⟩, ?_⟩
  exact List.forall_mem_map.2 fun o _ => ⟨.object, List.mem_cons_self, .object o⟩

theorem merge_objects (visit : Visit) {objects : List (Members Value)} (h : objects ≠ []) :
    callBuiltin visit "merge" (objects.map .object) =
      .done (.object (objects.foldl Members.insertAll [])) := by
  have heach : View.object.each "merge" (objects.map .object) = .done objects :=
    View.object.each_map "merge" (fun _ => rfl) objects
  have hfind : Function.find? "merge" = some _ := rfl
  rw [Function.callBuiltin_of_passes hfind (passes_objects h)]
  change Builtin.merge (objects.map .object) = _
  rw [Builtin.merge, heach, Outcome.done_bind]

/-! ## Objects of results -/

/-- The results of members come with their keys. -/
theorem eventually_memberResults {v : Value} {members : List (String × Expr)}
    {results : Members Value}
    (h : List.Forall₂ (fun m r => r.1 = m.1 ∧ Gets m.2 v (.done r.2)) members results) :
    ∀ᶠ n in atTop, memberResults (eval n) v members = .done (Members.ofList results) := by
  suffices hresults : ∀ᶠ n in atTop, (members.mapM fun m => do
      let r ← eval n m.2 v
      Outcome.done (m.1, r)) = .done results by
    filter_upwards [hresults] with n hn
    exact congrArg (· >>= fun rs => Outcome.done (Members.ofList rs)) hn
  induction h with
  | nil => exact .of_forall fun _ => rfl
  | @cons m r members results hmr _ ih =>
    obtain ⟨hkey, hgets⟩ := hmr
    filter_upwards [(gets_iff_eventually.1 hgets).2, ih] with n hn hrest
    simp only [List.mapM_cons, hn, hrest, ← hkey, Outcome.done_bind, Outcome.pure_eq]

theorem gets_multiHash {v : Value} (hv : v ≠ .null) {members : List (String × Expr)}
    {results : Members Value}
    (h : List.Forall₂ (fun m r => r.1 = m.1 ∧ Gets m.2 v (.done r.2)) members results) :
    Gets (.multiHash members) v (.done (.object (Members.ofList results))) := by
  have hnull : v.isNull = false := by
    cases v with
    | null => exact absurd rfl hv
    | _ => rfl
  refine reaches_step_iff.1 ⟨nofun, ?_⟩
  filter_upwards [eventually_memberResults h] with n hn
  simp only [step, hnull, hn]
  rfl

/-! ## The laws -/

/-- Objects that are merged make an object that has each key once, in the order in which the
    keys first come in the objects, with what the last object has for it that has the key.  To
    merge two merges is to merge all objects at once, order of keys included.  An object of
    results is the merge of one object for each result, where a key may come more than once. -/
theorem merge_right_biased (visit : Visit) :
    (∀ xs : List (Members Value), xs ≠ [] → (∀ x ∈ xs, x.keys.Nodup) →
      ∃ m : Members Value, callBuiltin visit "merge" (xs.map .object) = .done (.object m) ∧
        m.keys.Nodup ∧ m.keys = (xs.flatMap Members.keys).eraseDups ∧
        ∀ key, m.get? key = xs.reverse.findSome? fun x => x.get? key) ∧
    (∀ xs ys : List (Members Value), xs ≠ [] → ys ≠ [] →
      ∃ a b m : Value, callBuiltin visit "merge" (xs.map .object) = .done a ∧
        callBuiltin visit "merge" (ys.map .object) = .done b ∧
        callBuiltin visit "merge" [a, b] = .done m ∧
        callBuiltin visit "merge" ((xs ++ ys).map .object) = .done m) ∧
    ∀ (members : List (String × Expr)) (v : Value) (results : List (String × Value)),
      members ≠ [] → v ≠ .null →
      List.Forall₂ (fun m r => r.1 = m.1 ∧ Gets m.2 v (.done r.2)) members results →
      ∃ m : Value, Gets (.multiHash members) v (.done m) ∧
        callBuiltin visit "merge" (results.map fun r => .object [r]) = .done m := by
  refine ⟨fun xs hxs hkeys => ?_, fun xs ys hxs hys => ?_,
    fun members v results hmembers hv hresults => ?_⟩
  · refine ⟨_, merge_objects visit hxs, Members.nodup_keys_merged xs, Members.keys_merged xs,
      fun key => ?_⟩
    rw [Members.get?_merged hkeys]
    exact Option.or_none
  · have htwo := merge_objects visit (List.cons_ne_nil (xs.foldl Members.insertAll [])
      [ys.foldl Members.insertAll []])
    rw [Members.merged_append] at htwo
    exact ⟨_, _, _, merge_objects visit hxs, merge_objects visit hys, htwo,
      merge_objects visit (List.append_ne_nil_of_left_ne_nil hxs ys)⟩
  · have hmap : (results.map fun r => Value.object [r]) =
        (results.map fun r => [r]).map Value.object := by
      rw [List.map_map]
      rfl
    have hsome : (results.map fun r => [r]) ≠ [] := fun hnil => hmembers <| by
      rw [List.map_eq_nil_iff.1 hnil] at hresults
      exact List.forall₂_nil_right_iff.1 hresults
    refine ⟨_, gets_multiHash hv hresults, ?_⟩
    rw [hmap, merge_objects visit hsome, Members.merged_singletons]

/-- The key `a` comes first and has what comes last. -/
theorem merge_right_biased_of_repeated_keys :
    let xs : List (Members Value) := [[("a", .null)], [("b", .null), ("a", .boolean true)]]
    let ys : List (Members Value) := [[("c", .null), ("b", .boolean false)]]
    let members : List (String × Expr) := [("a", .current), ("b", .current), ("a", .not .current)]
    (∃ m : Members Value, callBuiltin (eval 1) "merge" (xs.map .object) = .done (.object m) ∧
      m.keys = ["a", "b"] ∧ m.get? "a" = some (.boolean true)) ∧
    (∃ a b m : Value, callBuiltin (eval 1) "merge" (xs.map .object) = .done a ∧
      callBuiltin (eval 1) "merge" (ys.map .object) = .done b ∧
      callBuiltin (eval 1) "merge" [a, b] = .done m ∧
      callBuiltin (eval 1) "merge" ((xs ++ ys).map .object) = .done m) ∧
    ∃ m : Value, Gets (.multiHash members) (.boolean true) (.done m) ∧
      callBuiltin (eval 1) "merge" [.object [("a", .boolean true)], .object [("b", .boolean true)],
        .object [("a", .boolean false)]] = .done m := by
  intro xs ys members
  obtain ⟨hkeys, htwo, hhash⟩ := merge_right_biased (eval 1)
  refine ⟨?_, htwo xs ys (List.cons_ne_nil _ _) (List.cons_ne_nil _ _), ?_⟩
  · obtain ⟨m, hm, -, hkeys, hget⟩ := hkeys xs (List.cons_ne_nil _ _) (by decide)
    exact ⟨m, hm, hkeys.trans (by decide), hget "a"⟩
  · have hcurrent : Gets .current (.boolean true) (.done (.boolean true)) := ⟨nofun, 1, rfl⟩
    have hnot : Gets (.not .current) (.boolean true) (.done (.boolean false)) := ⟨nofun, 2, rfl⟩
    exact hhash members (.boolean true)
      [("a", .boolean true), ("b", .boolean true), ("a", .boolean false)]
      (List.cons_ne_nil _ _) nofun
      (.cons ⟨rfl, hcurrent⟩ (.cons ⟨rfl, hcurrent⟩ (.cons ⟨rfl, hnot⟩ .nil)))

end JmesPath
