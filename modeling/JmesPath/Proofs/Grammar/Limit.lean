import JmesPath.Proofs.Grammar.Alongside

/-! # What the limit on nesting changes

Two parsers with different numbers of levels take the same steps until the one with fewer
levels has none left.  By then it has taken a token for each of its levels.

* `Cut` — two outcomes that are the same, unless the first one is a fault of the limit
* `Cut.bind` — what goes on after a cut is cut too
* `cut_operand`, `cut_extend` — productions over parsers that are cut
* `cut_expression_climb`, `cut_parse` — the parser with more levels, level by level
-/

namespace JmesPath.Grammar

/-- The second outcome is the first one, unless the first one is a fault of the limit and
    there is an excuse for it. -/
inductive Cut (limit : Nat) (excuse : Prop) {α : Type} :
    Except ParseError α → Except ParseError α → Prop
  | ok (a : α) : Cut limit excuse (.ok a) (.ok a)
  | error {fault : ParseError} :
      (∀ l p, fault ≠ .nestingTooDeep l p) → Cut limit excuse (.error fault) (.error fault)
  | tooDeep (position : Nat) (other : Except ParseError α) :
      excuse → Cut limit excuse (.error (.nestingTooDeep limit position)) other

section

variable {limit : Nat} {excuse excuse' : Prop} {α β : Type}

theorem Cut.weaken (h : excuse → excuse') {x y : Except ParseError α}
    (hcut : Cut limit excuse x y) : Cut limit excuse' x y := by
  cases hcut with
  | ok a => exact .ok a
  | error hfault => exact .error hfault
  | tooDeep position _ hexcuse => exact .tooDeep position _ (h hexcuse)

theorem Cut.bind {x y : Except ParseError α} {f g : α → Except ParseError β}
    (hcut : Cut limit excuse x y) (hnext : ∀ a, Cut limit excuse (f a) (g a)) :
    Cut limit excuse (x >>= f) (y >>= g) := by
  cases hcut with
  | ok a => exact hnext a
  | error hfault => exact .error hfault
  | tooDeep position _ hexcuse => exact .tooDeep position _ hexcuse

theorem Cut.map {x y : Except ParseError α} (f : α → β) (hcut : Cut limit excuse x y) :
    Cut limit excuse (x >>= fun a => pure (f a)) (y >>= fun a => pure (f a)) :=
  hcut.bind fun a => .ok (f a)

end

/-! ## Productions -/

section

variable {limit k : Nat} {excuse : Prop}

theorem cut_unexpected (stop : Nat) {α : Type} (ts : List Located) :
    Cut (α := α) limit excuse (unexpected stop ts) (unexpected stop ts) :=
  .error nofun

theorem paired_eq_iff {ts ts' : List Located} : Paired Eq ts ts' ↔ ts = ts' := by
  constructor
  · intro h
    induction h with
    | nil => rfl
    | cons t hs _ ih => rw [hs, ih]
  · rintro rfl
    induction ts with
    | nil => exact .nil
    | cons t ts ih => exact .cons t.token rfl ih

/-- Two runs over one token list belong together as long as the limit does not tell them
    apart. -/
def limitPairing (limit : Nat) (excuse : Prop) : Pairing where
  same := Eq
  faults fault fault' := fault = fault' ∧ ∀ l p, fault ≠ .nestingTooDeep l p
  excused fault := excuse ∧ ∃ position, fault = .nestingTooDeep limit position
  moved hfault hsame := by
    subst hsame
    exact ⟨(ParseError.movedTo_position _).symm, hfault⟩

theorem cut_iff_alongside {n : Nat} {α : Type} {x y : Except ParseError (Rest Located n α)} :
    Cut limit excuse x y ↔ Alongside (limitPairing limit excuse) x y := by
  constructor
  · intro h
    cases h with
    | ok r => exact .ok rfl (paired_eq_iff.2 rfl)
    | error hfault => exact .error ⟨rfl, hfault⟩
    | tooDeep position _ hexcuse => exact .excused _ ⟨hexcuse, position, rfl⟩
  · intro h
    cases h with
    | @ok r r' hvalue hrest =>
      obtain ⟨a, ts, _⟩ := r
      obtain ⟨a', ts', _⟩ := r'
      obtain rfl : a = a' := hvalue
      obtain rfl : ts = ts' := paired_eq_iff.1 hrest
      exact .ok _
    | error hfaults =>
      obtain ⟨rfl, hfault⟩ := hfaults
      exact .error hfault
    | excused _ hexcused =>
      obtain ⟨hexcuse, position, rfl⟩ := hexcused
      exact .tooDeep position _ hexcuse

variable (stop : Nat) {parse parse' : SubParser (Except ParseError)}
variable (hparse : ∀ power ts, ts.length ≤ k → Cut limit excuse (parse power ts) (parse' power ts))
include hparse

theorem sideBySide_of_cut (power : Nat) :
    SideBySide (limitPairing limit excuse) k (parse power) (parse' power) := by
  intro ts ts' hts hlength
  obtain rfl := paired_eq_iff.1 hts
  exact cut_iff_alongside.1 (hparse power ts hlength)

theorem cut_operand (t : Located) (ts : List Located) (hlength : ts.length ≤ k) :
    Cut limit excuse (operand stop parse t ts) (operand stop parse' t ts) :=
  cut_iff_alongside.2 <| alongside_operand rfl (sideBySide_of_cut hparse) t.token rfl
    (paired_eq_iff.2 rfl) hlength

theorem cut_extend (left : Expr) (t : Located) (ts : List Located) (hlength : ts.length ≤ k) :
    Cut limit excuse (extend stop parse left t ts) (extend stop parse' left t ts) :=
  cut_iff_alongside.2 <| alongside_extend rfl (sideBySide_of_cut hparse) left t.token rfl
    (paired_eq_iff.2 rfl) hlength

end

/-! ## Levels -/

/-- A parser with more levels goes on where one with fewer levels has run out of them.  That
    one has taken a token for each level. -/
theorem cut_expression_climb (limit limit' stop n : Nat) : ∀ n', n ≤ n' →
    (∀ power ts, Cut limit (n ≤ ts.length) (Parser.expression limit stop n power ts)
      (Parser.expression limit' stop n' power ts)) ∧
    (∀ power left ts, Cut limit (n ≤ ts.length) (Parser.climb limit stop n power left ts)
      (Parser.climb limit' stop n' power left ts)) := by
  induction n with
  | zero =>
    refine fun n' _ => ⟨fun power ts => ?_, fun power left ts => ?_⟩
    · exact .tooDeep _ _ (Nat.zero_le _)
    · cases ts with
      | nil =>
        have hnil : Parser.climb limit' stop n' power left [] = pure (.leaving left []) := by
          cases n' <;> rfl
        rw [hnil]
        exact .ok _
      | cons t rest =>
        by_cases hpower : power < t.token.power
        · simp only [Parser.climb, if_pos hpower]
          exact .tooDeep _ _ (Nat.zero_le _)
        · have hstop : Parser.climb limit' stop n' power left (t :: rest) =
              pure (.leaving left (t :: rest)) := by
            cases n' <;> simp only [Parser.climb, if_neg hpower]
          rw [hstop]
          simp only [Parser.climb, if_neg hpower]
          exact .ok _
  | succ n ih =>
    intro n' hle
    obtain ⟨n', rfl⟩ := Nat.exists_eq_add_one.2 (Nat.lt_of_lt_of_le n.succ_pos hle)
    obtain ⟨ihexpression, ihclimb⟩ := ih n' (Nat.le_of_succ_le_succ hle)
    refine ⟨fun power ts => ?_, fun power left ts => ?_⟩
    · cases ts with
      | nil => exact cut_unexpected stop []
      | cons t rest =>
        -- Parts are read from the tokens behind the first one, which is one for this level.
        have hparts (power : Nat) (us : List Located) (hus : us.length ≤ rest.length) :
            Cut limit (n + 1 ≤ (t :: rest).length) (Parser.expression limit stop n power us)
              (Parser.expression limit' stop n' power us) :=
          (ihexpression power us).weaken fun hn => Nat.succ_le_succ (Nat.le_trans hn hus)
        simp only [Parser.expression]
        refine (cut_operand stop hparts t rest (Nat.le_refl _)).bind fun first => ?_
        refine Cut.map _ ((ihclimb power first.value first.rest).weaken fun hn => ?_)
        exact Nat.succ_le_succ (Nat.le_trans hn (Nat.le_of_lt_succ first.fewer))
    · cases ts with
      | nil => exact .ok _
      | cons t rest =>
        have hparts (power : Nat) (us : List Located) (hus : us.length ≤ rest.length) :
            Cut limit (n + 1 ≤ (t :: rest).length) (Parser.expression limit stop n power us)
              (Parser.expression limit' stop n' power us) :=
          (ihexpression power us).weaken fun hn => Nat.succ_le_succ (Nat.le_trans hn hus)
        by_cases hpower : power < t.token.power
        · simp only [Parser.climb, if_pos hpower]
          refine (cut_extend stop hparts left t rest (Nat.le_refl _)).bind fun longer => ?_
          refine Cut.map _ ((ihclimb power longer.value longer.rest).weaken fun hn => ?_)
          exact Nat.succ_le_succ (Nat.le_trans hn (Nat.le_of_lt_succ longer.fewer))
        · simp only [Parser.climb, if_neg hpower]
          exact .ok _

/-- Whole token lists: there is an excuse for the limit only if there are as many tokens. -/
theorem cut_parse {limit limit' : Nat} (h : limit ≤ limit') (stop : Nat) (ts : List Located) :
    Cut limit (limit ≤ ts.length) (parse limit stop ts) (parse limit' stop ts) := by
  refine ((cut_expression_climb limit limit' stop limit limit' h).1 0 ts).bind fun e => ?_
  split
  · exact .ok _
  · exact cut_unexpected stop _

end JmesPath.Grammar
