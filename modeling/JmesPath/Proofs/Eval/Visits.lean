import JmesPath.Proofs.Eval.Provenance

/-! # More visits

* `eval_mono` — an outcome stays the same when more visits may be open
* `HandedOn.eval` — a result has what the value and the tree hand on
* `eval_within` — a result refers to nothing new
* `Gets` — the outcome of an evaluation, for some number of visits
* `Ends` — an evaluation has an outcome
-/

namespace JmesPath

theorem saturated_all : Saturated fun _ => True := fun _ _ _ _ => trivial

theorem asks_step_all (e : Expr) (v : Value) :
    Piece (fun _ => True) e (Raises e) (Value.Within fun _ => True) fun visit => step visit e v :=
  asks_step saturated_all (fun _ _ => trivial) (fun _ _ => trivial)

theorem eval_succ {n : Nat} {e : Expr} {v : Value} (h : eval n e v ≠ .unfinished) :
    eval (n + 1) e v = eval n e v := by
  induction n generalizing e v with
  | zero => exact absurd rfl h
  | succ n ih =>
    exact (asks_step_all e v).mono (fun _ _ _ _ _ _ _ => trivial) (fun _ _ _ hv => ih hv) h

/-- An outcome stays the same when more visits may be open. -/
theorem eval_mono {n k : Nat} (hk : n ≤ k) {e : Expr} {v : Value}
    (h : eval n e v ≠ .unfinished) : eval k e v = eval n e v := by
  induction hk with
  | refl => rfl
  | step _ ih => rw [eval_succ (ih ▸ h), ih]

/-- A property of values that is handed on, and one of trees that goes with it: a tree has it
    if its children have it, and what it makes of its own, a literal or a reference, has the
    property of values. -/
structure HandedOn (P : Value → Prop) (T : Expr → Prop) : Prop where
  inherited : Inherited P
  child {e c : Expr} : T e → c ∈ e.children → T c
  literal {v : Value} : T (.literal v) → P v
  reference {r : Expr} : T (.ref r) → P (.reference r)
  referred {r : Expr} : P (.reference r) → T r

/-- A result has what the value and the tree hand on. -/
theorem HandedOn.eval {P : Value → Prop} {T : Expr → Prop} (h : HandedOn P T) {n : Nat}
    {e : Expr} {v r : Value} (he : T e) (hv : P v) (hr : eval n e v = .done r) : P r := by
  induction n generalizing e v r with
  | zero => cases hr
  | succ n ih =>
    have hstep := asks_step_of_own h.inherited (fun w hw => h.literal (hw ▸ he))
      (fun q hq => h.reference (hq ▸ he)) hv
    refine hstep.of_done (fun e' v' r' hasked hr' => ?_) hr
    obtain ⟨hchild | ⟨-, hreference⟩, hv'⟩ := hasked
    · exact ih (h.child he hchild) hv' hr'
    · exact ih (h.referred hreference) hv' hr'

theorem handedOn_within {S : Expr → Prop} (hS : Saturated S) :
    HandedOn (Value.Within S) (Expr.Within S) where
  inherited := inherited_within S
  child := Expr.Within.child
  literal := id
  reference he := hS.reference (he _ List.mem_cons_self)
  referred hr := hS _ (within_reference hr)

theorem eval_within {S : Expr → Prop} (hS : Saturated S) {n : Nat} {e : Expr} {v r : Value}
    (he : e.Within S) (hv : v.Within S) (h : eval n e v = .done r) : r.Within S :=
  (handedOn_within hS).eval he hv h

/-- The visits that a node asks for have results that refer to nothing new. -/
theorem answer_within {S : Expr → Prop} (hS : Saturated S) {n : Nat} {e : Expr}
    (he : e.Within S) (e' : Expr) (v' r : Value) (hasked : Asked S e e' v')
    (h : eval n e' v' = .done r) : r.Within S := by
  obtain ⟨hchild | ⟨-, hreference⟩, hv'⟩ := hasked
  · exact eval_within hS (he.child hchild) hv' h
  · exact eval_within hS (hS e' hreference) hv' h

/-- The outcome of an evaluation, with as many visits as it takes. -/
def Gets (e : Expr) (v : Value) (o : Outcome Value) : Prop :=
  o ≠ .unfinished ∧ ∃ n, eval n e v = o

/-- The evaluation ends, with a result or with an error. -/
def Ends (e : Expr) (v : Value) : Prop := ∃ n, eval n e v ≠ .unfinished

theorem Ends.exists_gets {e : Expr} {v : Value} (h : Ends e v) : ∃ o, Gets e v o := by
  obtain ⟨n, hn⟩ := h
  exact ⟨_, hn, n, rfl⟩

theorem Gets.ends {e : Expr} {v : Value} {o : Outcome Value} (h : Gets e v o) : Ends e v := by
  obtain ⟨ho, n, rfl⟩ := h
  exact ⟨n, ho⟩

theorem not_ends_iff {e : Expr} {v : Value} : ¬ Ends e v ↔ ∀ n, eval n e v = .unfinished := by
  simp [Ends]

end JmesPath
