import JmesPath.Parser.Error
import JmesPath.Rest
import JmesPath.Proofs.Grammar.Rules

/-! # Successful productions

A production of the parser takes tokens with their places and can fail.  `Gives` is what
the rules see of it: the result, and the tokens left without their places.

* `words` — the tokens of a list without their places
* `Gives` — a production succeeds with a result and leaves these tokens
* `gives_list` — lists of items are read as the rules say, if the items are
-/

namespace JmesPath.Rules

/-- The tokens of a list without their places. -/
def words (ts : List Located) : List Token := ts.map Located.token

@[simp] theorem words_nil : words [] = [] := rfl

@[simp] theorem words_cons (t : Located) (ts : List Located) :
    words (t :: ts) = t.token :: words ts := rfl

theorem words_eq_cons {ts : List Located} {t : Token} {us : List Token}
    (h : words ts = t :: us) : ∃ position rest, ts = ⟨t, position⟩ :: rest ∧ words rest = us := by
  cases ts with
  | nil => cases h
  | cons l rest =>
    cases h
    exact ⟨l.start, rest, rfl, rfl⟩

section

variable {n k : Nat} {α β : Type}

/-- A production succeeds with a result and leaves these words. -/
def Gives (x : Except ParseError (Rest Located n α)) (a : α) (rest : List Token) : Prop :=
  ∃ r, x = .ok r ∧ r.value = a ∧ words r.rest = rest

theorem gives_of_eq {x : Except ParseError (Rest Located n α)} {r : Rest Located n α}
    (h : x = .ok r) : Gives x r.value (words r.rest) := ⟨r, h, rfl, rfl⟩

@[simp] theorem gives_pure (r : Rest Located n α) (a : α) (rest : List Token) :
    Gives (pure r) a rest ↔ r.value = a ∧ words r.rest = rest := by
  constructor
  · rintro ⟨_, h, ha, hrest⟩
    cases h
    exact ⟨ha, hrest⟩
  · rintro ⟨ha, hrest⟩
    exact ⟨r, rfl, ha, hrest⟩

@[simp] theorem gives_throw (e : ParseError) (a : α) (rest : List Token) :
    ¬ Gives (throw e : Except ParseError (Rest Located n α)) a rest := by
  rintro ⟨r, h, -⟩
  cases h

@[simp] theorem gives_ok (r : Rest Located n α) (a : α) (rest : List Token) :
    Gives (.ok r) a rest ↔ r.value = a ∧ words r.rest = rest := gives_pure r a rest

@[simp] theorem gives_error (e : ParseError) (a : α) (rest : List Token) :
    ¬ Gives (.error e : Except ParseError (Rest Located n α)) a rest := gives_throw e a rest

@[simp] theorem gives_ok_bind (r : Rest Located n α)
    (f : Rest Located n α → Except ParseError (Rest Located k β)) (b : β) (rest : List Token) :
    Gives (Except.ok r >>= f) b rest ↔ Gives (f r) b rest := Iff.rfl

@[simp] theorem gives_error_bind (e : ParseError)
    (f : Rest Located n α → Except ParseError (Rest Located k β)) (b : β) (rest : List Token) :
    ¬ Gives (Except.error e >>= f) b rest := gives_throw e b rest

theorem gives_bind {x : Except ParseError (Rest Located n α)}
    {f : Rest Located n α → Except ParseError (Rest Located k β)} {b : β} {rest : List Token} :
    Gives (x >>= f) b rest ↔ ∃ r, x = .ok r ∧ Gives (f r) b rest := by
  cases x <;> simp

/-- A result that is only passed on in another form. -/
theorem gives_then {x : Except ParseError (Rest Located n α)}
    {f : Rest Located n α → Rest Located k β} {b : β} {rest : List Token} :
    Gives (x >>= fun r => pure (f r)) b rest ↔
      ∃ r, x = .ok r ∧ (f r).value = b ∧ words (f r).rest = rest := by
  simp only [gives_bind, gives_pure]

end

/-! ## Lists -/

section

variable {α : Type} {itemRule : List Token → α → List Token → Prop}
    {again : List Token → Bool → List Token → Prop}

/-- What stands behind an item of a list: nothing more, or other items. -/
def Others (itemRule : List Token → α → List Token → Prop)
    (again : List Token → Bool → List Token → Prop) (mid : List Token) (as : List α)
    (rest : List Token) : Prop :=
  (as = [] ∧ again mid false rest) ∨
    ∃ next, again mid true next ∧ Separated itemRule again next as rest

theorem separated_iff {ts : List Token} {as : List α} {rest : List Token} :
    Separated itemRule again ts as rest ↔
      ∃ a more mid, as = a :: more ∧ itemRule ts a mid ∧ Others itemRule again mid more rest := by
  constructor
  · intro h
    cases h with
    | last hitem hagain => exact ⟨_, _, _, rfl, hitem, .inl ⟨rfl, hagain⟩⟩
    | more hitem hagain hmore => exact ⟨_, _, _, rfl, hitem, .inr ⟨_, hagain, hmore⟩⟩
  · rintro ⟨a, more, mid, rfl, hitem, ⟨rfl, hagain⟩ | ⟨next, hagain, hmore⟩⟩
    · exact .last hitem hagain
    · exact .more hitem hagain hmore

variable {item : (s : List Located) → Except ParseError (Rest Located s.length α)}
    {more : (s : List Located) → Except ParseError (Rest Located s.length Bool)}

/-- One round of a reader that runs until it gives none. -/
theorem gives_unfold
    {step : (s : List Located) → Except ParseError (Rest Located s.length (Option α))}
    {ts : List Located} {as : List α} {rest : List Token} :
    Gives (Rest.unfold step ts) as rest ↔
      (as = [] ∧ Gives (step ts) none rest) ∨
      ∃ a others r, as = a :: others ∧ step ts = .ok r ∧ r.value = some a ∧
        Gives (Rest.unfold step r.rest) others rest := by
  rw [Rest.unfold]
  cases hstep : step ts with
  | error e => simp
  | ok r =>
    cases hvalue : r.value with
    | none => simp [hvalue, Rest.map, eq_comm]
    | some a =>
      simp only [gives_ok_bind, gives_ok, hvalue, gives_then]
      constructor
      · rintro ⟨s, hs, rfl, rfl⟩
        exact .inr ⟨a, s.value, r, rfl, rfl, hvalue, s, hs, rfl, rfl⟩
      · rintro (⟨-, h, -⟩ | ⟨b, others, t, rfl, ht, hb, s, hs, rfl, rfl⟩)
        · cases h
        · cases ht
          cases hvalue.symm.trans hb
          exact ⟨s, hs, rfl, rfl⟩

/-- One round of a list behind its first item: another item, or none. -/
def following (item : (s : List Located) → Except ParseError (Rest Located s.length α))
    (more : (s : List Located) → Except ParseError (Rest Located s.length Bool))
    (s : List Located) : Except ParseError (Rest Located s.length (Option α)) := do
  let again ← more s
  if again.value then
    let next ← item again.rest
    pure (again.andThen (next.map some))
  else pure (again.map fun _ => none)

theorem following_eq_ok {s : List Located} {r : Rest Located s.length (Option α)}
    (h : following item more s = .ok r) :
    ∃ m, more s = .ok m ∧ ((m.value = false ∧ r.value = none ∧ r.rest = m.rest) ∨
      ∃ next, m.value = true ∧ item m.rest = .ok next ∧ r.value = some next.value ∧
        r.rest = next.rest) := by
  unfold following at h
  cases hm : more s with
  | error e => rw [hm] at h; cases h
  | ok m =>
    refine ⟨m, rfl, ?_⟩
    cases hv : m.value with
    | false =>
      simp only [hm, bind, Except.bind, hv] at h
      cases h
      exact .inl ⟨rfl, rfl, rfl⟩
    | true =>
      cases hi : item m.rest with
      | error e => simp [hm, bind, Except.bind, hv, hi] at h
      | ok next =>
        simp only [hm, bind, Except.bind, hv, hi] at h
        cases h
        exact .inr ⟨next, rfl, rfl, rfl, rfl⟩

theorem following_none {s : List Located} {m : Rest Located s.length Bool}
    (hm : more s = .ok m) (hv : m.value = false) :
    following item more s = .ok (m.map fun _ => none) := by
  simp [following, hm, hv, bind, Except.bind, pure, Except.pure]

theorem following_some {s : List Located} {m : Rest Located s.length Bool}
    {next : Rest Located m.rest.length α}
    (hm : more s = .ok m) (hv : m.value = true) (hi : item m.rest = .ok next) :
    following item more s = .ok (m.andThen (next.map some)) := by
  simp [following, hm, hv, hi, bind, Except.bind, pure, Except.pure]

variable (hitem : ∀ ts a rest, Gives (item ts) a rest ↔ itemRule (words ts) a rest)
    (hmore : ∀ ts b rest, (b = true → ∃ a left, itemRule rest a left) →
      (Gives (more ts) b rest ↔ again (words ts) b rest))
include hitem hmore

theorem gives_others (ts : List Located) (as : List α) (rest : List Token) :
    Gives (Rest.unfold (following item more) ts) as rest ↔
      Others itemRule again (words ts) as rest := by
  -- By the number of tokens left: a round that goes on takes the comma and an item.
  induction ts using WellFounded.induction (measure List.length).wf generalizing as with
  | _ ts ih =>
    rw [gives_unfold]
    constructor
    · rintro (⟨rfl, r, hr, hnone, rfl⟩ | ⟨a, others, r, rfl, hr, ha, hothers⟩)
      · obtain ⟨m, hm, ⟨hv, -, hrest⟩ | ⟨next, -, -, hsome, -⟩⟩ := following_eq_ok hr
        · refine .inl ⟨rfl, ?_⟩
          rw [hrest, ← hmore ts false _ (by simp)]
          exact ⟨m, hm, hv, rfl⟩
        · rw [hsome] at hnone; cases hnone
      · obtain ⟨m, hm, ⟨-, hnone, -⟩ | ⟨next, hv, hi, hsome, hrest⟩⟩ := following_eq_ok hr
        · rw [hnone] at ha; cases ha
        · rw [hsome] at ha
          cases ha
          have hrule : itemRule (words m.rest) next.value (words next.rest) :=
            (hitem _ _ _).1 (gives_of_eq hi)
          rw [ih r.rest r.fewer, hrest] at hothers
          refine .inr ⟨words m.rest, ?_, separated_iff.2 ⟨_, _, _, rfl, hrule, hothers⟩⟩
          exact (hmore ts true _ fun _ => ⟨_, _, hrule⟩).1 ⟨m, hm, hv, rfl⟩
    · rintro (⟨rfl, hagain⟩ | ⟨mid, hagain, hmoreItems⟩)
      · obtain ⟨m, hm, hv, rfl⟩ := (hmore ts false _ (by simp)).2 hagain
        exact .inl ⟨rfl, _, following_none hm hv, rfl, rfl⟩
      · obtain ⟨a, others, left, rfl, hrule, hothers⟩ := separated_iff.1 hmoreItems
        obtain ⟨m, hm, hv, rfl⟩ := (hmore ts true _ fun _ => ⟨_, _, hrule⟩).2 hagain
        obtain ⟨next, hi, rfl, rfl⟩ := (hitem _ _ _).2 hrule
        refine .inr ⟨next.value, others, _, rfl, following_some hm hv hi, rfl, ?_⟩
        exact (ih _ (m.andThen (next.map some)).fewer _).2 hothers

/-- A list is read as the rules say, if its items and what stands behind them are.  What
    stands behind an item needs to agree only where another item can follow. -/
theorem gives_list (ts : List Located) (as : List α) (rest : List Token) :
    Gives (Rest.list item more ts) as rest ↔ Separated itemRule again (words ts) as rest := by
  have hlist : Rest.list item more ts = (do
      let first ← item ts
      let others ← Rest.unfold (following item more) first.rest
      pure (first.andThen (others.map (first.value :: ·)))) := rfl
  rw [hlist, separated_iff]
  simp only [gives_bind, gives_pure]
  constructor
  · rintro ⟨first, hf, others, ho, rfl, rfl⟩
    refine ⟨first.value, others.value, words first.rest, rfl,
      (hitem _ _ _).1 (gives_of_eq hf), ?_⟩
    exact (gives_others hitem hmore _ _ _).1 (gives_of_eq ho)
  · rintro ⟨a, others, mid, rfl, hrule, hothers⟩
    obtain ⟨first, hf, rfl, rfl⟩ := (hitem _ _ _).2 hrule
    obtain ⟨o, ho, rfl, rfl⟩ := (gives_others hitem hmore _ _ _).2 hothers
    exact ⟨first, hf, o, ho, rfl, rfl⟩

end

end JmesPath.Rules
