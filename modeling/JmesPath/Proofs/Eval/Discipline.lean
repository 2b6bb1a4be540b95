import JmesPath.Proofs.Eval.Endless
import JmesPath.Proofs.Tree.Compiled

/-! # References as arguments

Where all references of a tree are arguments of functions that evaluate them, no reference
gets into data.  Each visit then goes down the tree, also the visit of a reference by a
function, so the height of the tree bounds the visits that are open at once.

* `Expr.Disciplined` — all references of a tree are arguments of such functions
* `disciplined_iff` — the same by way of the children
* `eval_disciplined` — as many visits as the tree is high are enough, and the result is data
* `disciplined_evaluation` — queries
-/

namespace JmesPath

/-- All references of a tree are arguments of functions that evaluate them. -/
structure Expr.Disciplined (e : Expr) : Prop where
  root (r : Expr) : e ≠ .ref r
  argument {node r : Expr} : e.HasNode node → .ref r ∈ node.children →
    ∃ name ∈ appliers, ∃ args, node = .call name args

theorem Expr.Disciplined.not_ref {r : Expr} (h : (Expr.ref r).Disciplined) : False := h.root r rfl

/-- By way of the children: a child is such a tree, or it is a reference to one and an
    argument. -/
theorem disciplined_iff {e : Expr} :
    e.Disciplined ↔ (∀ r, e ≠ .ref r) ∧ ∀ c ∈ e.children, c.Disciplined ∨
      ∃ r, c = .ref r ∧ r.Disciplined ∧ ∃ name ∈ appliers, ∃ args, e = .call name args := by
  constructor
  · intro h
    refine ⟨h.root, fun c hc => ?_⟩
    by_cases href : ∃ r, c = .ref r
    · obtain ⟨r, rfl⟩ := href
      have hnode : e.HasNode (.ref r) := .child hc (.root _)
      refine .inr ⟨r, rfl, ⟨fun s hs => ?_, fun hnode' => h.argument (hnode.trans ?_)⟩,
        h.argument (.root e) hc⟩
      · -- A reference to a reference would be no argument.
        obtain ⟨name, -, args, hcall⟩ := h.argument hnode (r := s) (by simp [Expr.children, hs])
        cases hcall
      · exact .child List.mem_cons_self hnode'
    · exact .inl ⟨fun r hr => href ⟨r, hr⟩, fun hnode => h.argument (.child hc hnode)⟩
  · rintro ⟨hroot, hchildren⟩
    refine ⟨hroot, fun {node r} hnode hr => ?_⟩
    rcases Expr.hasNode_iff.1 hnode with rfl | ⟨c, hc, hnode⟩
    · obtain hc | ⟨-, -, -, hcall⟩ := hchildren _ hr
      · exact hc.not_ref.elim
      · exact hcall
    · obtain hdisciplined | ⟨s, rfl, hdisciplined, -⟩ := hchildren c hc
      · exact hdisciplined.argument hnode hr
      · rcases Expr.hasNode_iff.1 hnode with rfl | ⟨d, hd, hnode⟩
        · cases List.mem_singleton.1 hr
          exact hdisciplined.not_ref.elim
        · cases List.mem_singleton.1 hd
          exact hdisciplined.argument hnode hr

/-! ## Outcomes -/

/-- If the visits that a piece asks for have outcomes, then so has the piece. -/
theorem Asks.yields {α : Type} {P : α → Prop} {fault : EvalError → Prop}
    {asked : Expr → Value → Prop} {answer : Value → Prop} {F : Visit → Outcome α}
    (hF : Asks asked answer fault P F) {visit : Visit}
    (hvisit : ∀ e v, asked e v → Yields fault answer (visit e v)) : Yields fault P (F visit) := by
  induction hF with
  | done ha => exact .done ha
  | failed herror => exact .failed herror
  | ask hasked _ ih => exact (hvisit _ _ hasked).bind ih

/-- The outcome is an error, or a result that is data. -/
abbrev Settles (o : Outcome Value) : Prop := Yields (fun _ => True) Value.IsData o

theorem within_none : Value.Within (fun _ => False) = Value.IsData := by
  funext v
  exact propext List.eq_nil_iff_forall_not_mem.symm

/-- A piece that comes by data only, if all its visits have outcomes that are data. -/
theorem Asks.settles {asked : Expr → Value → Prop} {fault : EvalError → Prop}
    {F : Visit → Outcome Value}
    (hF : Asks asked (Value.Within fun _ => False) fault (Value.Within fun _ => False) F)
    {visit : Visit} (hvisit : ∀ e v, asked e v → Settles (visit e v)) : Settles (F visit) := by
  rw [within_none] at hF
  exact (hF.weaken fun _ _ => trivial).yields hvisit

/-! ## Functions -/

theorem exists_applier {name : String} (h : name ∈ appliers) :
    ∃ f, Function.find? name = some f ∧ ∀ args, Applies f.name f.params f.body args := by
  obtain ⟨f, hf⟩ : ∃ f, Function.find? name = some f := by
    simp only [appliers, List.mem_cons, List.not_mem_nil, or_false] at h
    rcases h with rfl | rfl | rfl | rfl <;> exact ⟨_, rfl⟩
  refine ⟨f, hf, ?_⟩
  rcases builtins_agree f (List.mem_of_find?_eq_some hf) with ⟨-, hname, -⟩ | ⟨-, -, happlies⟩
  · exact absurd (name_of_find? hf ▸ h) hname
  · exact happlies

/-- A function that evaluates a reference, on data and on references that are written as its
    arguments. -/
theorem callBuiltin_settles {name : String} (hname : name ∈ appliers) (args : List Expr)
    {values : List Value} {visit : Visit}
    (hvalues : ∀ w ∈ values, w.IsData ∨ ∃ r, .ref r ∈ args ∧ w = .reference r)
    (hvisit : ∀ r item, .ref r ∈ args → item.IsData → Settles (visit r item)) :
    Settles (callBuiltin visit name values) := by
  obtain ⟨f, hf, happlies⟩ := exists_applier hname
  simp only [callBuiltin, hf, Function.call]
  cases Function.check f.name f.params values with
  | some error => exact .failed trivial
  | none =>
    dsimp only
    cases happlies values with
    | misfit _ hbody =>
      rw [hbody]
      exact .failed trivial
    | applied r items hr hitems hbody =>
      obtain hdata | ⟨s, hs, hrs⟩ := hvalues _ hr
      · cases hdata
      cases hrs
      obtain hdata | ⟨s, -, hs⟩ := hvalues _ hitems
      · have hwithin : (Value.array items).Within fun _ => False := hdata.within
        refine (hbody (inherited_within _) (within_array.1 hwithin)).settles fun c w hasked => ?_
        obtain ⟨rfl, hw⟩ := hasked
        exact hvisit c w hs (within_none ▸ within_array.1 hwithin w hw)
      · cases hs

/-! ## Evaluations -/

/-- As many visits as the tree is high are enough for an outcome, and the result is data. -/
theorem eval_disciplined {n : Nat} {e : Expr} {v : Value} (he : e.Disciplined)
    (hliterals : ∀ w, e.HasNode (.literal w) → w.IsData) (hv : v.IsData) (hn : e.height ≤ n) :
    Settles (eval n e v) := by
  induction n generalizing e v with
  | zero => exact absurd hn (Nat.not_le.2 e.height_pos)
  | succ n ih =>
    obtain ⟨hroot, hchildren⟩ := disciplined_iff.1 he
    have hlower (c : Expr) (hc : c ∈ e.children) : c.height ≤ n := Expr.height_le_succ_iff.1 hn c hc
    have hchild (c : Expr) (hc : c ∈ e.children) (hdisciplined : c.Disciplined) (w : Value)
        (hw : w.IsData) : Settles (eval n c w) :=
      ih hdisciplined (fun u hu => hliterals u (.child hc hu)) hw (hlower c hc)
    by_cases hplain : ∀ c ∈ e.children, c.Disciplined
    · -- No reference is made here, so the node comes by data only.
      have hstep := asks_step_of_own (inherited_within fun _ => False) (e := e) (v := v)
        (fun w hw => (hliterals w (hw ▸ .root e)).within) (fun r hr => absurd hr (hroot r)) hv.within
      refine hstep.settles fun c w hasked => ?_
      obtain ⟨hc | ⟨-, hreference⟩, hw⟩ := hasked
      · exact hchild c hc (hplain c hc) w (within_none ▸ hw)
      · exact (within_reference hreference).elim
    · obtain ⟨name, hname, args, rfl⟩ : ∃ name ∈ appliers, ∃ args, e = .call name args := by
        obtain ⟨c, hc⟩ := Classical.not_forall.1 hplain
        obtain ⟨hc, hother⟩ := Classical.not_imp.1 hc
        obtain ⟨r, -, -, hcall⟩ := (hchildren c hc).resolve_left hother
        exact hcall
      have hargs : ∀ c ∈ args, Yields (fun _ => True)
          (fun w => w.IsData ∨ ∃ r, c = .ref r ∧ w = .reference r) (eval n c v) := by
        intro c hc
        obtain hdisciplined | ⟨r, rfl, -⟩ := hchildren c hc
        · exact (hchild c hc hdisciplined v hv).imp fun w => .inl
        · obtain ⟨m, rfl⟩ := Nat.exists_eq_add_one.2
            (Nat.lt_of_lt_of_le (Expr.ref r).height_pos (hlower _ hc))
          exact .done (.inr ⟨r, rfl, rfl⟩)
      refine (yields_mapM hargs).bind fun values hvalues => ?_
      refine callBuiltin_settles hname args (fun w hw => ?_) fun r item hr hitem => ?_
      · obtain ⟨c, hc, hdata | ⟨r, rfl, hw⟩⟩ := hvalues w hw
        · exact .inl hdata
        · exact .inr ⟨r, hc, hw⟩
      · -- The body of a reference is lower than the call, which makes up for the jump.
        obtain hdisciplined | ⟨s, hs, hdisciplined, -⟩ := hchildren _ hr
        · exact hdisciplined.not_ref.elim
        · cases hs
          have hbody : r ∈ (Expr.ref r).children := List.mem_cons_self
          refine ih hdisciplined (fun u hu => hliterals u (.child hr (.child hbody hu))) hitem ?_
          exact Nat.le_trans (Nat.le_of_lt (Expr.height_lt_of_mem_children hbody)) (hlower _ hr)

/-- The evaluation of a query whose references are arguments of functions that evaluate them:
    on data, it has an outcome with as many visits open at once as its tree is high, visits
    within visits are no more than that, and its result is data. -/
theorem disciplined_evaluation {limit : Nat} {source : List Char} {e : Expr}
    (hcompile : compile limit source = .ok e) (he : e.Disciplined) {v : Value} (hv : v.IsData) :
    eval e.height e v ≠ .unfinished ∧
    (∀ (chain : Nat → Visited) (k : Nat), chain 0 = (e, v) →
      (∀ i < k, Opens (chain i) (chain (i + 1))) → k + 1 ≤ e.height) ∧
    ∀ r, Gets e v (.done r) → r.IsData := by
  have hliterals (w : Value) (hw : e.HasNode (.literal w)) : w.IsData :=
    (compiled_built hcompile).literal_of_hasNode hw
  have hsettles {n : Nat} (hn : e.height ≤ n) : Settles (eval n e v) :=
    eval_disciplined he hliterals hv hn
  have hfinished := (hsettles (Nat.le_refl _)).finished
  refine ⟨hfinished, fun chain k hstart hchain => ?_, fun r hr => ?_⟩
  · have hunfinished := chain_unfinished hchain
    rw [hstart] at hunfinished
    refine Nat.lt_of_not_le fun hle => hfinished ?_
    rw [← hunfinished, eval_mono hle hfinished]
  · obtain ⟨hdone, n, hn⟩ := hr
    have houtcome := hsettles (Nat.le_max_left e.height n)
    rw [eval_mono (Nat.le_max_right e.height n) (hn ▸ hdone), hn] at houtcome
    cases houtcome with
    | done hdata => exact hdata

/-- A reference within a reference, on data that is sorted by it. -/
theorem disciplined_evaluation_of_nested_sort :
    ∃ e v, compile defaultLimit "map(&sort_by(@, &a), @)".toList = .ok e ∧ e.Disciplined ∧
      v.IsData ∧ e.height = 5 ∧ eval 5 e v ≠ .unfinished ∧ ∃ r, Gets e v (.done r) ∧ r.IsData := by
  let e : Expr := .call "map" [.ref (.call "sort_by" [.current, .ref (.field "a")]), .current]
  let v : Value := .array [.array [.object [("a", .string "y")], .object [("a", .string "x")]]]
  let sorted : Value :=
    .array [.array [.object [("a", .string "x")], .object [("a", .string "y")]]]
  have hcompile : compile defaultLimit "map(&sort_by(@, &a), @)".toList = .ok e := by cbv
  have hleaf {e : Expr} (h : e.children = []) (hroot : ∀ r, e ≠ .ref r) : e.Disciplined :=
    disciplined_iff.2 ⟨hroot, by simp [h]⟩
  have hsort : (Expr.call "sort_by" [.current, .ref (.field "a")]).Disciplined := by
    refine disciplined_iff.2 ⟨by simp, List.forall_mem_cons.2 ⟨.inl (hleaf rfl (by simp)),
      List.forall_mem_singleton.2 (.inr ⟨_, rfl, hleaf rfl (by simp), _, ?_, _, rfl⟩)⟩⟩
    simp [appliers]
  have he : e.Disciplined := by
    refine disciplined_iff.2 ⟨by simp, List.forall_mem_cons.2 ⟨.inr ⟨_, rfl, hsort, _, ?_, _, rfl⟩,
      List.forall_mem_singleton.2 (.inl (hleaf rfl (by simp)))⟩⟩
    simp [appliers]
  have hdata : v.IsData := rfl
  have hresult : Gets e v (.done sorted) := ⟨by simp, 5, by cbv⟩
  obtain ⟨hfinished, -, hsorted⟩ := disciplined_evaluation hcompile he hdata
  exact ⟨e, v, hcompile, he, hdata, rfl, hfinished, sorted, hresult, hsorted sorted hresult⟩

end JmesPath
