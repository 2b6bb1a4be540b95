import JmesPath.Eval.Basic

/-! # What an evaluation asks for

A piece of an evaluation knows the visits that it opens by their outcomes only.  `Asks`
follows it from visit to visit: which visits it may ask for, what it counts on in an
answer, which errors are its own, and what its own result is then like.

* `Asks` — a piece of an evaluation, visit by visit
* `Asks.bind`, `asks_mapM` — how pieces are put together
* `Asks.mono` — more answers do not change an outcome
* `Asks.of_done` — what the result is like
* `Asks.of_failed` — where an error comes from
* `Asks.outcome` — which outcomes there are
-/

namespace JmesPath

/-- A piece of an evaluation, as a function of the way to visit, only asks for visits with
    `asked`.  An error that no visit has is one of `fault`.  Given that every answer has the
    property `answer`, its result has the property `result`. -/
inductive Asks (asked : Expr → Value → Prop) (answer : Value → Prop) (fault : EvalError → Prop)
    {α : Type} (result : α → Prop) : (Visit → Outcome α) → Prop
  | done {a : α} : result a → Asks asked answer fault result fun _ => .done a
  | failed {e : EvalError} : fault e → Asks asked answer fault result fun _ => .failed e
  | ask {e : Expr} {v : Value} {next : Value → Visit → Outcome α} :
      asked e v → (∀ r, answer r → Asks asked answer fault result (next r)) →
      Asks asked answer fault result fun visit => visit e v >>= fun r => next r visit

section

variable {asked : Expr → Value → Prop} {answer : Value → Prop} {fault fault' : EvalError → Prop}
variable {α β : Type} {result mid : α → Prop} {last : β → Prop}

theorem Asks.visit {e : Expr} {v : Value} (h : asked e v) :
    Asks asked answer fault answer fun visit => visit e v := by
  have hvisit : Asks asked answer fault answer fun visit => visit e v >>= fun r => .done r :=
    .ask h fun r hr => .done hr
  simpa only [← Outcome.pure_eq, bind_pure] using hvisit

theorem Asks.bind {F : Visit → Outcome α} {G : α → Visit → Outcome β}
    (hF : Asks asked answer fault mid F) (hG : ∀ a, mid a → Asks asked answer fault last (G a)) :
    Asks asked answer fault last fun visit => F visit >>= fun a => G a visit := by
  induction hF with
  | done ha => exact hG _ ha
  | failed he => exact .failed he
  | ask hasked _ ih =>
    simp only [bind_assoc]
    exact .ask hasked ih

theorem Asks.map {F : Visit → Outcome α} {f : α → β} (hF : Asks asked answer fault mid F)
    (hf : ∀ a, mid a → last (f a)) : Asks asked answer fault last fun visit => f <$> F visit :=
  hF.bind fun _ ha => .done (hf _ ha)

theorem Asks.weaken {F : Visit → Outcome α} (hF : Asks asked answer fault result F)
    (h : ∀ e, fault e → fault' e) : Asks asked answer fault' result F := by
  induction hF with
  | done ha => exact .done ha
  | failed he => exact .failed (h _ he)
  | ask hasked _ ih => exact .ask hasked ih

theorem Asks.widen {asked' : Expr → Value → Prop} {F : Visit → Outcome α}
    (hF : Asks asked answer fault result F) (h : ∀ e v, asked e v → asked' e v) :
    Asks asked' answer fault result F := by
  induction hF with
  | done ha => exact .done ha
  | failed he => exact .failed he
  | ask hasked _ ih => exact .ask (h _ _ hasked) ih

/-- One piece for each item, in order. -/
theorem asks_mapM {ι : Type} {F : ι → Visit → Outcome α} {items : List ι}
    (h : ∀ i ∈ items, Asks asked answer fault mid (F i)) :
    Asks asked answer fault (fun as => ∀ a ∈ as, mid a) fun visit =>
      items.mapM fun i => F i visit := by
  induction items with
  | nil => exact .done (List.forall_mem_nil _)
  | cons i items ih =>
    obtain ⟨hi, hitems⟩ := List.forall_mem_cons.1 h
    simp only [List.mapM_cons]
    exact hi.bind fun a ha => (ih hitems).bind fun as has =>
      .done (List.forall_mem_cons.2 ⟨ha, has⟩)

/-! ## Outcomes -/

variable {F : Visit → Outcome α} {visit visit' : Visit}

/-- An outcome stays the same for another way to visit that gives the same where the first
    one gives an outcome. -/
theorem Asks.mono (hF : Asks asked answer fault result F)
    (hanswer : ∀ e v r, asked e v → visit e v = .done r → answer r)
    (hvisit : ∀ e v, asked e v → visit e v ≠ .unfinished → visit' e v = visit e v)
    (hfinished : F visit ≠ .unfinished) : F visit' = F visit := by
  induction hF with
  | done => rfl
  | failed => rfl
  | @ask e v next hasked _ ih =>
    cases hv : visit e v with
    | unfinished => simp [hv] at hfinished
    | failed fault =>
      have hv' := hvisit e v hasked (by simp [hv])
      simp only [hv', hv, Outcome.failed_bind]
    | done r =>
      have hv' := hvisit e v hasked (by simp [hv])
      simp only [hv, Outcome.done_bind] at hfinished
      simp only [hv', hv, Outcome.done_bind]
      exact ih r (hanswer e v r hasked hv) hfinished

/-- Only the visits that may be asked for matter. -/
theorem Asks.congr (hF : Asks asked answer fault result F)
    (hanswer : ∀ e v r, asked e v → visit e v = .done r → answer r)
    (hvisit : ∀ e v, asked e v → visit' e v = visit e v) : F visit' = F visit := by
  by_cases hfinished : F visit = .unfinished
  · -- Whichever way to visit gives an outcome carries it over to the other one.
    by_cases hfinished' : F visit' = .unfinished
    · rw [hfinished, hfinished']
    · refine (hF.mono (fun e v r hasked hv => ?_) (fun e v hasked _ => ?_) hfinished').symm
      · exact hanswer e v r hasked (hvisit e v hasked ▸ hv)
      · exact (hvisit e v hasked).symm
  · exact hF.mono hanswer (fun e v hasked _ => hvisit e v hasked) hfinished

theorem Asks.of_done (hF : Asks asked answer fault result F)
    (hanswer : ∀ e v r, asked e v → visit e v = .done r → answer r) {a : α}
    (h : F visit = .done a) : result a := by
  induction hF with
  | done ha =>
    cases h
    exact ha
  | failed => cases h
  | @ask e v next hasked _ ih =>
    cases hv : visit e v with
    | unfinished => simp [hv] at h
    | failed fault => simp [hv] at h
    | done r =>
      simp only [hv, Outcome.done_bind] at h
      exact ih r (hanswer e v r hasked hv) h

/-- An error is one of the piece's own, or that of a visit. -/
theorem Asks.of_failed (hF : Asks asked answer fault result F)
    (hanswer : ∀ e v r, asked e v → visit e v = .done r → answer r) {error : EvalError}
    (h : F visit = .failed error) :
    fault error ∨ ∃ e v, asked e v ∧ visit e v = .failed error := by
  induction hF with
  | done => cases h
  | failed he =>
    cases h
    exact .inl he
  | @ask e v next hasked _ ih =>
    cases hv : visit e v with
    | unfinished => simp [hv] at h
    | failed error' =>
      simp only [hv, Outcome.failed_bind] at h
      cases h
      exact .inr ⟨e, v, hasked, hv⟩
    | done r =>
      simp only [hv, Outcome.done_bind] at h
      exact ih r (hanswer e v r hasked hv) h

/-- There is a result, or an error of the piece's own, or a visit that has no result decides. -/
theorem Asks.outcome {result : Value → Prop} {F : Visit → Outcome Value}
    (hF : Asks asked answer fault result F)
    (hanswer : ∀ e v r, asked e v → visit e v = .done r → answer r) :
    (∃ r, F visit = .done r) ∨ (∃ error, fault error ∧ F visit = .failed error) ∨
      ∃ e v, asked e v ∧ (∀ r, visit e v ≠ .done r) ∧ F visit = visit e v := by
  induction hF with
  | done => exact .inl ⟨_, rfl⟩
  | failed he => exact .inr (.inl ⟨_, he, rfl⟩)
  | @ask e v next hasked _ ih =>
    cases hv : visit e v with
    | done r => simpa only [hv, Outcome.done_bind] using ih r (hanswer e v r hasked hv)
    | failed error => exact .inr (.inr ⟨e, v, hasked, by simp [hv]⟩)
    | unfinished => exact .inr (.inr ⟨e, v, hasked, by simp [hv]⟩)

end

end JmesPath
