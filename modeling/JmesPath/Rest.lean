/-! # Results with input left over

A reader takes items from the front of a list and hands on what is left.  `Rest`
carries the result, the items left, and the proof that there are fewer of them, so
that a loop over a reader ends.

* `Rest` — a result and the items left
* `Rest.leaving` — a result for which one item was taken
* `Rest.map`, `Rest.widen`, `Rest.succ` — another result, a larger bound
* `Rest.andThen` — a second result, read from what the first one left
* `Rest.unfold`, `Rest.list` — readers that run again and again
-/

namespace JmesPath

/-- A result and the items left over, fewer than `n`. -/
structure Rest (σ : Type) (n : Nat) (α : Type) where
  value : α
  rest : List σ
  fewer : rest.length < n

namespace Rest

variable {σ α β : Type} {n k : Nat}

/-- A result that leaves all but one item. -/
def leaving (value : α) (rest : List σ) : Rest σ (rest.length + 1) α :=
  ⟨value, rest, Nat.lt_succ_self _⟩

def map (f : α → β) (r : Rest σ n α) : Rest σ n β := ⟨f r.value, r.rest, r.fewer⟩

def widen (r : Rest σ n α) (h : n ≤ k) : Rest σ k α :=
  ⟨r.value, r.rest, Nat.lt_of_lt_of_le r.fewer h⟩

/-- The same result with one more item in front. -/
def succ (r : Rest σ n α) : Rest σ (n + 1) α := r.widen (Nat.le_succ _)

/-- A second result, read from what the first one left. -/
def andThen (r : Rest σ n α) (s : Rest σ r.rest.length β) : Rest σ n β :=
  s.widen (Nat.le_of_lt r.fewer)

/-- A second result, read with the last item that the first one took. -/
def resumed (r : Rest σ n α) (s : Rest σ (r.rest.length + 1) β) : Rest σ n β :=
  s.widen r.fewer

variable {m : Type → Type} [Monad m]

/-- The results of a reader that runs until it gives none. -/
def unfold (step : (s : List σ) → m (Rest σ s.length (Option α))) (s : List σ) :
    m (Rest σ s.length (List α)) := do
  let r ← step s
  match r.value with
  | none => pure (r.map fun _ => [])
  | some first =>
    let others ← unfold step r.rest
    pure (r.andThen (others.map (first :: ·)))
termination_by s.length
decreasing_by exact r.fewer

/-- One item or more; `more` reads what stands behind an item and tells whether there is
    another one. -/
def list (item : (s : List σ) → m (Rest σ s.length α))
    (more : (s : List σ) → m (Rest σ s.length Bool)) (s : List σ) :
    m (Rest σ s.length (List α)) := do
  let first ← item s
  let others ← unfold (fun s => do
    let again ← more s
    if again.value then
      let next ← item again.rest
      pure (again.andThen (next.map some))
    else pure (again.map fun _ => none)) first.rest
  pure (first.andThen (others.map (first.value :: ·)))

end Rest

end JmesPath
