import JmesPath.Proofs.Eval.Endless
import JmesPath.Proofs.Tree.Compiled

/-! # Where the errors of an evaluation come from

An error is raised by a node: of the tree that is evaluated, or of a reference, and all
references come from the tree.

* `eval_failed` — an error of an evaluation is one of a node's own
* `compiled_faults` — the errors of a query, and queries that have none
-/

namespace JmesPath

/-- An error of an evaluation is an own one of a node, in the tree or in a reference. -/
theorem eval_failed {S : Expr → Prop} (hS : Saturated S) {n : Nat} {e : Expr} {v : Value}
    {fault : EvalError} (he : e.Within S) (hv : v.Within S) (h : eval n e v = .failed fault) :
    ∃ origin node, (origin = e ∨ S origin) ∧ origin.HasNode node ∧ Raises node fault := by
  induction n generalizing e v with
  | zero => cases h
  | succ n ih =>
    rcases (asks_step hS he hv).of_failed (answer_within hS he) h with
      hraises | ⟨e', v', ⟨hvisit, hv'⟩, hfailed⟩
    · exact ⟨e, e, .inl rfl, .root e, hraises⟩
    · rcases hvisit with hchild | ⟨-, hreference⟩
      · obtain ⟨origin, node, rfl | horigin, hnode, hraises⟩ := ih (he.child hchild) hv' hfailed
        · exact ⟨e, node, .inl rfl, .child hchild hnode, hraises⟩
        · exact ⟨origin, node, .inr horigin, hnode, hraises⟩
      · obtain ⟨origin, node, horigin, hnode, hraises⟩ := ih (hS e' hreference) hv' hfailed
        exact ⟨origin, node, .inr (horigin.elim (· ▸ hreference) id), hnode, hraises⟩

/-- The errors of a query on data: each is an own one of a node of its tree, in the body of
    a reference or not.  A query that calls no function and has no slice in steps of zero
    ends with a result. -/
theorem compiled_faults {limit : Nat} {source : List Char} {e : Expr}
    (hcompile : compile limit source = .ok e) {v : Value} (hv : v.IsData) :
    (∀ fault, Gets e v (.failed fault) → ∃ node, e.HasNode node ∧ Raises node fault) ∧
    ((∀ name args, ¬ e.HasNode (.call name args)) →
      (∀ start stop, ¬ e.HasNode (.slice start stop (some 0))) →
      ∃ r, Gets e v (.done r)) := by
  have hdata (w : Value) (hw : e.HasNode (.literal w)) : w.IsData :=
    (compiled_built hcompile).literal_of_hasNode hw
  have hreference (r : Expr) (hr : r ∈ e.references) : e.HasNode r :=
    hasNode_of_mem_references hdata hr
  have hraised (fault : EvalError) (hfault : Gets e v (.failed fault)) :
      ∃ node, e.HasNode node ∧ Raises node fault := by
    obtain ⟨-, n, hn⟩ := hfault
    obtain ⟨origin, node, horigin, hnode, hraises⟩ :=
      eval_failed (saturated_references e) (fun r hr => hr) hv.within hn
    rcases horigin with rfl | horigin
    · exact ⟨node, hnode, hraises⟩
    · exact ⟨node, (hreference origin horigin).trans hnode, hraises⟩
  refine ⟨hraised, fun hcalls hslices => ?_⟩
  have hends : Ends e v := by
    refine ends_of_plain_references (fun r hr node hnode => ?_) hv
    cases node with
    | call name args => exact absurd ((hreference r hr).trans hnode) (hcalls name args)
    | _ => rfl
  obtain ⟨n, hn⟩ := hends
  cases ho : eval n e v with
  | done r => exact ⟨r, nofun, n, ho⟩
  | unfinished => exact absurd ho hn
  | failed fault =>
    obtain ⟨node, hnode, hraises⟩ := hraised fault ⟨nofun, n, ho⟩
    cases hraises with
    | zeroStep start stop => exact absurd hnode (hslices start stop)
    | unknown args _ => exact absurd hnode (hcalls _ args)
    | call args _ _ => exact absurd hnode (hcalls _ args)

/-- A key that cannot be sorted by, found by a reference within a reference. -/
theorem compiled_faults_of_nested_sort :
    ∃ e, compile defaultLimit "map(&sort_by(@, &a), @)".toList = .ok e ∧
      (Value.array [.array [.object [("a", .boolean true)]]]).IsData ∧
      Gets e (.array [.array [.object [("a", .boolean true)]]])
        (.failed (.keyType "sort_by" [.number, .string] .boolean)) ∧
      ∃ node, e.HasNode node ∧ Raises node (.keyType "sort_by" [.number, .string] .boolean) := by
  let e : Expr := .call "map" [.ref (.call "sort_by" [.current, .ref (.field "a")]), .current]
  have hcompile : compile defaultLimit "map(&sort_by(@, &a), @)".toList = .ok e := by cbv
  have hdata : (Value.array [.array [.object [("a", .boolean true)]]]).IsData := rfl
  have hfails : Gets e (.array [.array [.object [("a", .boolean true)]]])
      (.failed (.keyType "sort_by" [.number, .string] .boolean)) := ⟨by simp, 3, rfl⟩
  exact ⟨e, hcompile, hdata, hfails, (compiled_faults hcompile hdata).1 _ hfails⟩

end JmesPath
