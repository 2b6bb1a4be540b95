import Mathlib
import JmesPath.Proofs.Eval.Visits

/-! # One evaluation after another

The outcome of a tree, in terms of the outcomes of its parts.

* `gets_iff_eventually`, `gets_unique` — an outcome is that of all runs with enough visits
* `Reaches` — the outcome of a piece of an evaluation
* `reaches_ask_iff`, `reaches_step_iff` — a piece that starts with a visit, and a node's step
* `Then` — one evaluation after another one, `then_assoc`
* `Returns` — an evaluation that always ends with a result
* `gets_first` — the outcome of a node that first visits one part
* `gets_pipe`, `gets_subexpression` and others — the outcomes of nodes
-/

namespace JmesPath

open Filter

theorem gets_iff_eventually {e : Expr} {v : Value} {o : Outcome Value} :
    Gets e v o ↔ o ≠ .unfinished ∧ ∀ᶠ n in atTop, eval n e v = o := by
  refine and_congr_right fun ho => ⟨fun ⟨n, hn⟩ => ?_, fun h => h.exists⟩
  filter_upwards [eventually_ge_atTop n] with k hk
  rw [eval_mono hk (hn ▸ ho), hn]

theorem gets_unique {e : Expr} {v : Value} {o o' : Outcome Value} (h : Gets e v o)
    (h' : Gets e v o') : o = o' := by
  obtain ⟨n, hn, hn'⟩ := ((gets_iff_eventually.1 h).2.and (gets_iff_eventually.1 h').2).exists
  exact hn.symm.trans hn'

/-! ## Pieces -/

/-- The outcome of a piece of an evaluation, with as many visits as it takes. -/
def Reaches {α : Type} (F : Visit → Outcome α) (o : Outcome α) : Prop :=
  o ≠ .unfinished ∧ ∀ᶠ n in atTop, F (eval n) = o

section

variable {α : Type} {o : Outcome α} {e : Expr} {v : Value}

theorem reaches_done_iff {a : α} : Reaches (fun _ => .done a) o ↔ o = .done a := by
  constructor
  · rintro ⟨-, h⟩
    obtain ⟨n, hn⟩ := h.exists
    exact hn.symm
  · rintro rfl
    exact ⟨nofun, .of_forall fun _ => rfl⟩

/-- A visit, and then what comes next.  An error of the visit is the outcome. -/
theorem reaches_ask_iff {next : Value → Visit → Outcome α} :
    Reaches (fun visit => visit e v >>= fun r => next r visit) o ↔
      (∃ r, Gets e v (.done r) ∧ Reaches (next r) o) ∨
        ∃ fault, Gets e v (.failed fault) ∧ o = .failed fault := by
  constructor
  · rintro ⟨ho, h⟩
    obtain ⟨n, hn⟩ := h.exists
    dsimp only at hn
    cases hfirst : eval n e v with
    | done r =>
      have hr : Gets e v (.done r) := ⟨nofun, n, hfirst⟩
      refine .inl ⟨r, hr, ho, ?_⟩
      filter_upwards [h, (gets_iff_eventually.1 hr).2] with k hk hfirst
      rw [← hk, hfirst, Outcome.done_bind]
    | failed fault =>
      rw [hfirst, Outcome.failed_bind] at hn
      exact .inr ⟨fault, ⟨nofun, n, hfirst⟩, hn.symm⟩
    | unfinished =>
      rw [hfirst, Outcome.unfinished_bind] at hn
      exact absurd hn.symm ho
  · rintro (⟨r, hr, ho, h⟩ | ⟨fault, hfault, rfl⟩)
    · refine ⟨ho, ?_⟩
      filter_upwards [h, (gets_iff_eventually.1 hr).2] with k hk hfirst
      rw [hfirst, Outcome.done_bind, hk]
    · refine ⟨nofun, ?_⟩
      filter_upwards [(gets_iff_eventually.1 hfault).2] with k hfirst
      rw [hfirst, Outcome.failed_bind]

/-- Behind a result, all that matters is what comes next. -/
theorem first_done_iff {B : Value → Outcome α → Prop} {b : Value} (h : Gets e v (.done b)) :
    ((∃ c, Gets e v (.done c) ∧ B c o) ∨ ∃ fault, Gets e v (.failed fault) ∧ o = .failed fault) ↔
      B b o := by
  constructor
  · rintro (⟨c, hc, hB⟩ | ⟨fault, hfault, -⟩)
    · cases gets_unique h hc
      exact hB
    · cases gets_unique h hfault
  · exact fun hB => .inl ⟨b, h, hB⟩

theorem reaches_ask_of_done {next : Value → Visit → Outcome α} {b : Value}
    (h : Gets e v (.done b)) :
    Reaches (fun visit => visit e v >>= fun r => next r visit) o ↔ Reaches (next b) o :=
  reaches_ask_iff.trans (first_done_iff h)

theorem reaches_visit_iff {o : Outcome Value} : Reaches (fun visit => visit e v) o ↔ Gets e v o :=
  gets_iff_eventually.symm

/-- The outcome of a node is that of its step. -/
theorem reaches_step_iff {o : Outcome Value} :
    Reaches (fun visit => step visit e v) o ↔ Gets e v o := by
  rw [gets_iff_eventually, Reaches]
  refine and_congr_right fun _ => ?_
  conv_rhs => rw [← map_add_atTop_eq_nat 1, eventually_map]
  rfl

end

/-! ## Sequences -/

/-- One evaluation after another one.  An error of the first one is the outcome. -/
def Then (A B : Value → Outcome Value → Prop) (v : Value) (o : Outcome Value) : Prop :=
  (∃ b, A v (.done b) ∧ B b o) ∨ ∃ fault, A v (.failed fault) ∧ o = .failed fault

/-- An evaluation that always ends with a result. -/
def Returns (f : Value → Value) (v : Value) (o : Outcome Value) : Prop := o = .done (f v)

theorem then_assoc (A B C : Value → Outcome Value → Prop) :
    Then (Then A B) C = Then A (Then B C) := by
  funext v o
  apply propext
  constructor
  · rintro (⟨c, ⟨b, hb, hc⟩ | ⟨fault, -, hfault⟩, ho⟩ |
      ⟨fault, ⟨b, hb, hfault⟩ | ⟨fault', hfault, heq⟩, rfl⟩)
    · exact .inl ⟨b, hb, .inl ⟨c, hc, ho⟩⟩
    · cases hfault
    · exact .inl ⟨b, hb, .inr ⟨fault, hfault, rfl⟩⟩
    · cases heq
      exact .inr ⟨fault, hfault, rfl⟩
  · rintro (⟨b, hb, ⟨c, hc, ho⟩ | ⟨fault, hfault, rfl⟩⟩ | ⟨fault, hfault, rfl⟩)
    · exact .inl ⟨c, .inl ⟨b, hb, hc⟩, ho⟩
    · exact .inr ⟨fault, .inl ⟨b, hb, hfault⟩, rfl⟩
    · exact .inr ⟨fault, .inr ⟨fault, hfault, rfl⟩, rfl⟩

theorem then_done_iff {A B : Value → Outcome Value → Prop} {v c : Value} :
    Then A B v (.done c) ↔ ∃ b, A v (.done b) ∧ B b (.done c) := by
  simp [Then]

@[simp] theorem returns_then (f : Value → Value) (B : Value → Outcome Value → Prop) :
    Then (Returns f) B = fun v => B (f v) := by
  funext v o
  simp [Then, Returns]

@[simp] theorem then_returns_id (e : Expr) : Then (Gets e) (Returns id) = Gets e := by
  funext v o
  apply propext
  constructor
  · rintro (⟨b, hb, rfl⟩ | ⟨fault, hfault, rfl⟩)
    · exact hb
    · exact hfault
  · intro h
    cases o with
    | done b => exact .inl ⟨b, h, rfl⟩
    | failed fault => exact .inr ⟨fault, h, rfl⟩
    | unfinished => exact absurd rfl h.1

/-- Two functions one after the other are one function. -/
theorem then_returns_returns (A : Value → Outcome Value → Prop) (f g : Value → Value) :
    Then (Then A (Returns f)) (Returns g) = Then A (Returns fun v => g (f v)) := by
  rw [then_assoc, returns_then]
  rfl

/-! ## Nodes -/

section

variable {e l r : Expr} {f : Value → Value}

/-- A node that visits nothing. -/
theorem gets_leaf (h : ∀ visit v, step visit e v = .done (f v)) : Gets e = Returns f := by
  funext v o
  rw [← reaches_step_iff]
  simp only [h]
  exact propext reaches_done_iff

theorem gets_identity : Gets .identity = Returns id := gets_leaf fun _ _ => rfl

theorem gets_current : Gets .current = Returns id := gets_leaf fun _ _ => rfl

theorem gets_ref (e : Expr) : Gets (.ref e) = Returns fun _ => .reference e :=
  gets_leaf fun _ _ => rfl

theorem gets_of_returns (h : Gets e = Returns f) (v : Value) : Gets e v (.done (f v)) := by
  rw [h]
  rfl

theorem then_of_done {B : Value → Outcome Value → Prop} {v b : Value} {o : Outcome Value}
    (h : Gets e v (.done b)) : Then (Gets e) B v o ↔ B b o := first_done_iff h

/-- Two functions behind an evaluation have the same outcome if they agree on its result. -/
theorem then_returns_agree_iff {g : Value → Value} {v : Value} :
    (∀ o, Then (Gets e) (Returns f) v o ↔ Then (Gets e) (Returns g) v o) ↔
      ∀ b, Gets e v (.done b) → f b = g b := by
  constructor
  · intro h b hb
    rcases (h (.done (f b))).1 (.inl ⟨b, hb, rfl⟩) with ⟨b', hb', heq⟩ | ⟨fault, -, heq⟩
    · cases gets_unique hb hb'
      exact Outcome.done.inj heq
    · cases heq
  · intro h o
    refine or_congr_left (exists_congr fun b => and_congr_right fun hb => ?_)
    rw [Returns, Returns, h b hb]

/-- A node that first visits one part, and then goes on from the result. -/
theorem gets_first_iff {next : Value → Visit → Outcome Value} {B : Value → Outcome Value → Prop}
    {v : Value} {o : Outcome Value}
    (hstep : ∀ visit, step visit e v = visit l v >>= fun b => next b visit)
    (hnext : ∀ b o, Reaches (next b) o ↔ B b o) : Gets e v o ↔ Then (Gets l) B v o := by
  rw [← reaches_step_iff]
  simp only [hstep, Then, reaches_ask_iff, hnext]

theorem gets_first {next : Value → Visit → Outcome Value} {B : Value → Outcome Value → Prop}
    (hstep : ∀ visit v, step visit e v = visit l v >>= fun b => next b visit)
    (hnext : ∀ b o, Reaches (next b) o ↔ B b o) : Gets e = Then (Gets l) B := by
  funext v o
  exact propext (gets_first_iff (fun visit => hstep visit v) hnext)

/-- The outcome of a pipe is that of one side after the other. -/
theorem gets_pipe (l r : Expr) : Gets (.pipe l r) = Then (Gets l) (Gets r) :=
  gets_first (fun _ _ => rfl) fun _ _ => reaches_visit_iff

/-- The two sides may need different numbers of visits; the larger one does for both. -/
theorem then_gets_iff {v : Value} {o : Outcome Value} :
    Then (Gets l) (Gets r) v o ↔
      o ≠ .unfinished ∧ ∃ n, (eval n l v >>= eval n r) = o := by
  rw [← gets_pipe]
  refine and_congr_right fun ho => ⟨?_, fun ⟨n, hn⟩ => ⟨n + 1, hn⟩⟩
  rintro ⟨n, hn⟩
  cases n with
  | zero => exact absurd hn.symm ho
  | succ n => exact ⟨n, hn⟩

theorem gets_indexed (l r : Expr) : Gets (.indexed l r) = Then (Gets l) (Gets r) :=
  gets_first (fun _ _ => rfl) fun _ _ => reaches_visit_iff

/-- Nothing is selected from `null`. -/
def UnlessNull (B : Value → Outcome Value → Prop) (b : Value) (o : Outcome Value) : Prop :=
  if b.isNull then o = .done .null else B b o

theorem gets_subexpression (l r : Expr) :
    Gets (.sub l r) = Then (Gets l) (UnlessNull (Gets r)) := by
  refine gets_first (fun _ _ => rfl) fun b o => ?_
  cases hb : b.isNull with
  | true => simpa [UnlessNull, hb] using reaches_done_iff
  | false => simpa [UnlessNull, hb] using reaches_visit_iff

theorem gets_sub (hr : Gets r = Returns f) (hnull : f .null = .null) :
    Gets (.sub l r) = Then (Gets l) (Returns f) := by
  rw [gets_subexpression, hr]
  congr 1
  funext b o
  cases b with
  | null => simp [UnlessNull, Returns, Value.isNull, hnull]
  | _ => rfl

/-- The left side of a conjunction is the result if it is false-like. -/
theorem gets_and_iff {v : Value} {o : Outcome Value} : Gets (.and l r) v o ↔
    Then (Gets l) (fun a o => if a.isFalseLike then o = .done a else Gets r v o) v o := by
  refine gets_first_iff (fun _ => rfl) fun a o => ?_
  cases ha : a.isFalseLike with
  | true => simpa [ha] using reaches_done_iff
  | false => simpa [ha] using reaches_visit_iff

end

end JmesPath
