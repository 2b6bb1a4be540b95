import Mathlib
import JmesPath.Program
import JmesPath.Proofs.Eval.Visits

/-! # Evaluations that do not end

An evaluation that does not end goes from visit to visit without end, and since a tree is
only so high, one of its references is visited over and over.

* `Opens` — one visit opens another one
* `exists_opens` — what does not end opens a visit that does not end
* `asked_of_opens` — a visit opens visits of children and of references only
* `exists_recurring` — of finitely many references, one is visited over and over
* `evaluation_ends_iff` — which evaluations end
-/

namespace JmesPath

/-- A visit: an expression and the value that it is evaluated on. -/
abbrev Visited := Expr × Value

/-- A piece of an evaluation opens the visit `q`: if that visit failed, everything else being
    as it is, then so would the piece, and in the same way. -/
def PieceOpens {α : Type} (F : Visit → Outcome α) (q : Visited) : Prop :=
  ∃ n, ∀ (visit : Visit) (fault : EvalError),
    (∀ e v, (e, v) ≠ q → eval n e v ≠ .unfinished → visit e v = eval n e v) →
    visit q.1 q.2 = .failed fault → F visit = .failed fault

/-- The visit `p` opens the visit `q`. -/
def Opens (p q : Visited) : Prop := PieceOpens (fun visit => step visit p.1 p.2) q

open Classical in
/-- A way to visit that fails in one place. -/
noncomputable def failingAt (n : Nat) (q : Visited) (fault : EvalError) : Visit := fun e v =>
  if (e, v) = q then .failed fault else eval n e v

theorem failingAt_self (n : Nat) (q : Visited) (fault : EvalError) :
    failingAt n q fault q.1 q.2 = .failed fault := if_pos rfl

theorem failingAt_of_ne {n : Nat} {q : Visited} (fault : EvalError) {e : Expr} {v : Value}
    (h : (e, v) ≠ q) : failingAt n q fault e v = eval n e v := if_neg h

/-- A visit has not ended as long as a visit that it opens has not. -/
theorem Opens.unfinished {p q : Visited} (h : Opens p q) {n : Nat}
    (hq : eval n q.1 q.2 = .unfinished) : eval (n + 1) p.1 p.2 = .unfinished := by
  obtain ⟨k, hk⟩ := h
  -- An outcome of `p` would have to be every error that `q` can be made to fail with.
  refine Classical.byContradiction fun hfinished => ?_
  have hfailed (fault : EvalError) : eval (n + 1) p.1 p.2 = .failed fault := by
    have hstep := hk (failingAt (max n k) q fault) fault
      (fun e v hne hv => by
        rw [failingAt_of_ne fault hne, eval_mono (Nat.le_max_right n k) hv])
      (failingAt_self _ q fault)
    rw [← hstep]
    refine ((asks_step_all p.1 p.2).mono (fun _ _ _ _ _ _ _ => trivial) (fun e v _ hv => ?_)
      hfinished).symm
    have hne : (e, v) ≠ q := by
      rintro rfl
      exact hv hq
    rw [failingAt_of_ne fault hne, eval_mono (Nat.le_max_left n k) hv]
  cases (hfailed .zeroSliceStep).symm.trans (hfailed (.unknownFunction ""))

/-- A chain of visits, each opened by the one before, takes more visits than it has steps. -/
theorem chain_unfinished {chain : Nat → Visited} {k : Nat}
    (h : ∀ i < k, Opens (chain i) (chain (i + 1))) :
    eval k (chain 0).1 (chain 0).2 = .unfinished := by
  induction k generalizing chain with
  | zero => rfl
  | succ k ih =>
    have hothers : eval k (chain 1).1 (chain 1).2 = .unfinished :=
      @ih (fun i => chain (i + 1)) fun i hi => h (i + 1) (Nat.succ_lt_succ hi)
    exact (h 0 k.succ_pos).unfinished hothers

/-- A chain of visits, each opened by the one before, has no end. -/
theorem not_ends_of_chain {chain : Nat → Visited} (h : ∀ i, Opens (chain i) (chain (i + 1))) :
    ¬ Ends (chain 0).1 (chain 0).2 :=
  not_ends_iff.2 fun _ => chain_unfinished fun i _ => h i

theorem exists_pieceOpens {α : Type} {raised : EvalError → Prop} {result : α → Prop} {e : Expr}
    {F : Visit → Outcome α} (hF : Piece (fun _ => True) e raised result F) (h : ∀ n, F (eval n) = .unfinished) :
    ∃ q : Visited, PieceOpens F q ∧ ¬ Ends q.1 q.2 := by
  induction hF with
  | done => cases h 0
  | failed => cases h 0
  | @ask c v next _ hnext ih =>
    by_cases hends : Ends c v
    · obtain ⟨m, hm⟩ := hends
      cases hr : eval m c v with
      | unfinished => exact absurd hr hm
      | failed fault =>
        have hfailed := h m
        simp only [hr, Outcome.failed_bind] at hfailed
        cases hfailed
      | done r =>
        -- The first visit has a result, so it is what comes after that does not end.
        have hanswer {k : Nat} (hk : m ≤ k) : eval k c v = .done r := by
          rw [eval_mono hk hm, hr]
        have hstuck (n : Nat) : next r (eval n) = .unfinished := by
          refine Classical.byContradiction fun hfinished => ?_
          have hmono : next r (eval (max m n)) = next r (eval n) :=
            (hnext r fun _ _ => trivial).mono (fun _ _ _ _ _ _ _ => trivial)
              (fun e v _ hv => eval_mono (Nat.le_max_right m n) hv) hfinished
          have hunfinished := h (max m n)
          simp only [hanswer (Nat.le_max_left m n), Outcome.done_bind] at hunfinished
          exact hfinished (hmono ▸ hunfinished)
        obtain ⟨q, ⟨k, hk⟩, hq⟩ := ih r (fun _ _ => trivial) hstuck
        refine ⟨q, ⟨max m k, fun visit fault hvisit hfault => ?_⟩, hq⟩
        have hne : (c, v) ≠ q := by
          rintro rfl
          exact hq ⟨m, hm⟩
        have hcv : visit c v = .done r := by
          rw [hvisit c v hne (by simp [hanswer (Nat.le_max_left m k)]),
            hanswer (Nat.le_max_left m k)]
        simp only [hcv, Outcome.done_bind]
        refine hk visit fault (fun e v hne hv => ?_) hfault
        have hmax := eval_mono (Nat.le_max_right m k) hv
        rw [hvisit e v hne (hmax ▸ hv), hmax]
    · -- The first visit does not end itself.
      refine ⟨(c, v), ⟨0, fun visit fault _ hfault => ?_⟩, hends⟩
      simp only [hfault, Outcome.failed_bind]

/-- What does not end opens a visit that does not end. -/
theorem exists_opens {p : Visited} (h : ¬ Ends p.1 p.2) :
    ∃ q : Visited, Opens p q ∧ ¬ Ends q.1 q.2 :=
  exists_pieceOpens (asks_step_all p.1 p.2) fun n => not_ends_iff.1 h (n + 1)

/-- A visit opens visits of children, and, by a function that takes one, of references. -/
theorem asked_of_opens {S : Expr → Prop} (hS : Saturated S) {p q : Visited}
    (he : p.1.Within S) (hv : p.2.Within S) (h : Opens p q) : Asked S p.1 q.1 q.2 := by
  obtain ⟨n, hn⟩ := h
  refine Classical.byContradiction fun hasked => ?_
  -- A visit that is not asked for is not noticed, so it cannot make `p` fail in two ways.
  have hstep (fault : EvalError) : step (failingAt n q fault) p.1 p.2 = .failed fault :=
    hn _ fault (fun e v hne _ => failingAt_of_ne fault hne) (failingAt_self n q fault)
  have hcongr (fault : EvalError) :
      step (failingAt n q fault) p.1 p.2 = step (eval n) p.1 p.2 := by
    refine (asks_step hS he hv).congr (answer_within hS he) (fun e v hev => ?_)
    refine failingAt_of_ne fault ?_
    rintro rfl
    exact hasked hev
  have hfaults := (hstep .zeroSliceStep).symm.trans
    ((hcongr _).trans ((hcongr _).symm.trans (hstep (.unknownFunction ""))))
  cases hfaults

/-! ## Chains -/

/-- Visits without end, each opened by the one before. -/
theorem exists_chain {p : Visited} (h : ¬ Ends p.1 p.2) :
    ∃ chain : Nat → Visited, chain 0 = p ∧ ∀ i, Opens (chain i) (chain (i + 1)) := by
  obtain ⟨next, hnext⟩ := Classical.axiomOfChoice
    fun q : { q : Visited // ¬ Ends q.1 q.2 } => exists_opens q.2
  let chain (i : Nat) : { q : Visited // ¬ Ends q.1 q.2 } :=
    Nat.rec ⟨p, h⟩ (fun _ q => ⟨next q, (hnext q).2⟩) i
  exact ⟨fun i => (chain i).1, rfl, fun i => (hnext (chain i)).1⟩

/-- What a sequence meets in a list over and over, it meets in one place of the list over
    and over. -/
theorem exists_recurring {α : Type} {f : Nat → α} {l : List α}
    (h : ∀ k, ∃ i, k ≤ i ∧ f i ∈ l) : ∃ a ∈ l, ∀ k, ∃ i, k ≤ i ∧ f i = a := by
  induction l with
  | nil =>
    obtain ⟨i, -, hi⟩ := h 0
    cases hi
  | cons a l ih =>
    by_cases ha : ∀ k, ∃ i, k ≤ i ∧ f i = a
    · exact ⟨a, List.mem_cons_self, ha⟩
    · -- From some place on the first item is not met any more, so the others are.
      obtain ⟨bound, hbound⟩ := Classical.not_forall.1 ha
      have hl (k : Nat) : ∃ i, k ≤ i ∧ f i ∈ l := by
        obtain ⟨i, hi, hmem⟩ := h (max k bound)
        refine ⟨i, Nat.le_trans (Nat.le_max_left _ _) hi, ?_⟩
        rcases List.mem_cons.1 hmem with hfirst | hmem
        · exact absurd ⟨i, Nat.le_trans (Nat.le_max_right _ _) hi, hfirst⟩ hbound
        · exact hmem
      obtain ⟨b, hb, hrecurs⟩ := ih hl
      exact ⟨b, List.mem_cons_of_mem _ hb, hrecurs⟩

section

variable {S : Expr → Prop} (hS : Saturated S) {chain : Nat → Visited}
variable (hchain : ∀ i, Opens (chain i) (chain (i + 1)))
variable (he : (chain 0).1.Within S) (hv : (chain 0).2.Within S)
include hS hchain he hv

/-- The references of a chain are those that it starts with. -/
theorem chain_within (i : Nat) : (chain i).1.Within S ∧ (chain i).2.Within S := by
  induction i with
  | zero => exact ⟨he, hv⟩
  | succ i ih =>
    obtain ⟨hchild | ⟨-, hreference⟩, hwithin⟩ := asked_of_opens hS ih.1 ih.2 (hchain i)
    · exact ⟨ih.1.child hchild, hwithin⟩
    · exact ⟨hS _ hreference, hwithin⟩

/-- A chain visits references over and over, since no tree goes down without end. -/
theorem chain_visits_references (k : Nat) :
    ∃ i, k ≤ i ∧ (chain i).1.takesReference ∧ S (chain (i + 1)).1 := by
  refine Classical.byContradiction fun hnone => ?_
  -- Without references each visit is of a child, and the trees get lower and lower.
  have hdown (n : Nat) : (chain (k + n)).1.height + n ≤ (chain k).1.height := by
    induction n with
    | zero => exact Nat.le_refl _
    | succ n ih =>
      have hwithin := chain_within hS hchain he hv (k + n)
      obtain ⟨hchild | ⟨htakes, hreference⟩, -⟩ :=
        asked_of_opens hS hwithin.1 hwithin.2 (hchain (k + n))
      · have hlower : (chain (k + (n + 1))).1.height < (chain (k + n)).1.height :=
          Expr.height_lt_of_mem_children hchild
        omega
      · exact absurd ⟨k + n, Nat.le_add_right k n, htakes, hreference⟩ hnone
  have := hdown ((chain k).1.height + 1)
  omega

end

/-- On data, all references of a chain are those of the tree. -/
theorem exists_chain_of_isData {e : Expr} {v : Value} (hdata : v.IsData) (h : ¬ Ends e v) :
    ∃ chain : Nat → Visited, chain 0 = (e, v) ∧ (∀ i, Opens (chain i) (chain (i + 1))) ∧
      (∀ i, Asked (· ∈ e.references) (chain i).1 (chain (i + 1)).1 (chain (i + 1)).2) ∧
      ∀ k, ∃ i, k ≤ i ∧ (chain i).1.takesReference ∧ (chain (i + 1)).1 ∈ e.references := by
  have hp : ¬ Ends (e, v).1 (e, v).2 := h
  obtain ⟨chain, hstart, hchain⟩ := exists_chain hp
  have he : (chain 0).1.Within (· ∈ e.references) := by
    rw [hstart]
    exact fun r hr => hr
  have hv : (chain 0).2.Within (· ∈ e.references) := by
    rw [hstart]
    exact hdata.within
  have hS := saturated_references e
  refine ⟨chain, hstart, hchain, fun i => ?_, chain_visits_references hS hchain he hv⟩
  have hwithin := chain_within hS hchain he hv i
  exact asked_of_opens hS hwithin.1 hwithin.2 (hchain i)

theorem exists_chain_of_document {e : Expr} {data : Json} (h : ¬ Ends e (.ofJson data)) :
    ∃ chain : Nat → Visited, chain 0 = (e, .ofJson data) ∧
      (∀ i, Opens (chain i) (chain (i + 1))) ∧
      (∀ i, Asked (· ∈ e.references) (chain i).1 (chain (i + 1)).1 (chain (i + 1)).2) ∧
      ∀ k, ∃ i, k ≤ i ∧ (chain i).1.takesReference ∧ (chain (i + 1)).1 ∈ e.references :=
  exists_chain_of_isData (isData_ofJson data) h

/-- An evaluation on a document ends, with a result or with an error, exactly if it does not
    visit one of the references of its tree over and over, each time within the visit
    before. -/
theorem evaluation_ends_iff (e : Expr) (data : Json) :
    Ends e (.ofJson data) ↔ ¬ ∃ r ∈ e.references, ∃ chain : Nat → Visited,
      chain 0 = (e, .ofJson data) ∧ (∀ i, Opens (chain i) (chain (i + 1))) ∧
      ∀ k, ∃ i, k ≤ i ∧ (chain i).1 = r := by
  constructor
  · rintro hends ⟨r, -, chain, hstart, hchain, -⟩
    have hendless := not_ends_of_chain hchain
    rw [hstart] at hendless
    exact hendless hends
  · intro hnone
    refine Classical.byContradiction fun hends => ?_
    obtain ⟨chain, hstart, hchain, -, hvisits⟩ := exists_chain_of_document hends
    have hreferences (k : Nat) : ∃ i, k ≤ i ∧ (chain i).1 ∈ e.references := by
      obtain ⟨i, hi, -, hmem⟩ := hvisits k
      exact ⟨i + 1, Nat.le_succ_of_le hi, hmem⟩
    -- The references of a tree are finitely many.
    obtain ⟨r, hr, hrecurs⟩ := exists_recurring hreferences
    exact hnone ⟨r, hr, chain, hstart, hchain, hrecurs⟩

/-! ## Queries that end, and one that does not -/

/-- An evaluation on data ends if no reference takes a reference in its turn. -/
theorem ends_of_plain_references {e : Expr}
    (h : ∀ r ∈ e.references, ∀ node, r.HasNode node → node.takesReference = false)
    {v : Value} (hdata : v.IsData) : Ends e v := by
  refine Classical.byContradiction fun hends => ?_
  obtain ⟨chain, -, -, hasked, hvisits⟩ := exists_chain_of_isData hdata hends
  obtain ⟨i, -, -, hreference⟩ := hvisits 0
  -- Once inside a reference, the chain cannot leave it: nothing in there takes another one.
  have hinside (n : Nat) : (chain (i + 1)).1.HasNode (chain (i + 1 + n)).1 := by
    induction n with
    | zero => exact .root _
    | succ n ih =>
      obtain ⟨hchild | ⟨htakes, -⟩, -⟩ := hasked (i + 1 + n)
      · exact ih.of_child hchild
      · rw [h _ hreference _ ih] at htakes
        cases htakes
  obtain ⟨j, hj, htakes, -⟩ := hvisits (i + 1)
  obtain ⟨n, rfl⟩ := Nat.exists_eq_add_of_le hj
  rw [h _ hreference _ (hinside n)] at htakes
  cases htakes

/-- The body of a reference that is applied to itself. -/
def selfApplied : Expr := .call "map" [.indexed .identity (.index 0), .multiList [.current]]

/-- An array that holds nothing but the reference. -/
def selfReference : Value := .array [.reference selfApplied]

theorem eval_selfApplied (n : Nat) : eval n selfApplied selfReference = .unfinished := by
  induction n with
  | zero => rfl
  | succ n ih =>
    match n with
    | 0 => rfl
    | 1 => rfl
    | n + 2 =>
      have hmap : eval (n + 3) selfApplied selfReference =
          Builtin.map (eval (n + 2)) [.reference selfApplied, .array [selfReference]] := rfl
      have hbody : Builtin.map (eval (n + 2)) [.reference selfApplied, .array [selfReference]] =
          [selfReference].mapM (eval (n + 2) selfApplied) >>= fun rs => .done (.array rs) := rfl
      rw [hmap, hbody, List.mapM_cons, ih]
      rfl

/-- The reference is put into an array, and applied to the array it is in. -/
def selfApplication : Expr := .pipe (.multiList [.ref selfApplied]) selfApplied

theorem eval_selfApplication (n : Nat) (x : Binary64) :
    eval n selfApplication (.number x) = .unfinished := by
  match n with
  | 0 => rfl
  | 1 => rfl
  | 2 => rfl
  | n + 3 => exact eval_selfApplied (n + 2)

/-- A query whose evaluation does not end, though the length of its array would be one. -/
theorem self_application_does_not_end :
    ∃ e, compile defaultLimit "length([&map([0], [@])] | map([0], [@]))".toList = .ok e ∧
      ¬ Ends e (.ofJson (.number (.integer 1))) := by
  refine ⟨.call "length" [selfApplication], by cbv, not_ends_iff.2 fun n => ?_⟩
  have happlied (n : Nat) : eval n selfApplication (.ofJson (.number (.integer 1))) =
      .unfinished := eval_selfApplication n _
  cases n with
  | zero => rfl
  | succ n => simp only [eval, step, List.mapM_cons, happlied, Outcome.unfinished_bind]

end JmesPath
