import JmesPath.Parser.Basic
import JmesPath.Proofs.Grammar.Productions

/-! # The parser reads exactly what the grammar derives

* `gives_expression_climb` — level by level, for every binding power
* `parse_eq_ok_iff` — whole token lists
-/

namespace JmesPath.Rules

open Grammar

theorem expression_fresh (n : Nat) : Fresh (Expression n) := by
  intro power t ts e rest h
  cases n with
  | zero => cases h
  | succ n =>
    obtain ⟨u, us, first, mid, hcons, hoperand, -⟩ := h
    cases hcons
    refine ⟨?_, ?_, ?_, fun i => ?_⟩ <;>
    · rintro rfl
      cases hoperand with
      | brackets h => cases h

theorem expression_zero (limit stop power : Nat) (ts : List Located) (e : Expr)
    (rest : List Token) : ¬ Gives (Parser.expression limit stop 0 power ts) e rest := by
  rw [Parser.expression]
  exact gives_error _ _ _

theorem climb_stop (limit stop n : Nat) {power : Nat} (left : Expr) {ts : List Located}
    (h : Stops power (words ts)) :
    Parser.climb limit stop n power left ts = .ok (.leaving left ts) := by
  cases ts with
  | nil => cases n <;> rfl
  | cons t us =>
    have hpower : ¬ power < t.token.power := Nat.not_lt.2 (h _ rfl)
    cases n <;> simp only [Parser.climb, if_neg hpower] <;> rfl

theorem stops_cons {power : Nat} {t : Token} {ts : List Token} :
    Stops power (t :: ts) ↔ t.power ≤ power := by
  simp [Stops]

/-- Where the expression does not stop, it goes on, if there is a level left. -/
theorem climb_go (limit stop n : Nat) {power : Nat} (left : Expr) (t : Located)
    (ts : List Located) (h : power < t.token.power) (e : Expr) (rest : List Token) :
    Gives (Parser.climb limit stop (n + 1) power left (t :: ts)) e rest ↔
      ∃ longer all, extend stop (Parser.expression limit stop n) left t ts = .ok longer ∧
        Parser.climb limit stop n power longer.value longer.rest = .ok all ∧
        all.value = e ∧ words all.rest = rest := by
  simp only [Parser.climb, if_pos h, gives_bind, gives_pure]
  constructor
  · rintro ⟨longer, hl, all, ha, rfl, rfl⟩
    exact ⟨longer, all, hl, ha, rfl, rfl⟩
  · rintro ⟨longer, all, hl, ha, rfl, rfl⟩
    exact ⟨longer, hl, all, ha, rfl, rfl⟩

/-- The parser reads what the rules read, level by level. -/
theorem gives_expression_climb (limit stop n : Nat) :
    (∀ power ts e rest, Gives (Parser.expression limit stop n power ts) e rest ↔
      Expression n power (words ts) e rest) ∧
    (∀ power left ts e rest, Gives (Parser.climb limit stop n power left ts) e rest ↔
      Climb n power left (words ts) e rest) := by
  -- Where nothing continues an expression, no level is needed.
  have hstop (k power : Nat) (left : Expr) (ts : List Located) (e : Expr) (rest : List Token)
      (h : Stops power (words ts)) : Gives (Parser.climb limit stop k power left ts) e rest ↔
        Stops power (words ts) ∧ e = left ∧ rest = words ts := by
    rw [climb_stop limit stop k left h, gives_ok]
    constructor
    · rintro ⟨rfl, rfl⟩
      exact ⟨h, rfl, rfl⟩
    · rintro ⟨-, rfl, rfl⟩
      exact ⟨rfl, rfl⟩
  induction n with
  | zero =>
    refine ⟨fun power ts e rest => ?_, fun power left ts e rest => ?_⟩
    · exact iff_of_false (expression_zero _ _ _ _ _ _) id
    · by_cases h : Stops power (words ts)
      · exact hstop 0 power left ts e rest h
      · cases ts with
        | nil => exact (h (by simp [Stops])).elim
        | cons t us =>
          rw [words_cons, stops_cons, Nat.not_le] at h
          simp only [Parser.climb, if_pos h, Climb, words_cons, stops_cons]
          exact iff_of_false (gives_error _ _ _) (fun hc => absurd hc.1 (Nat.not_le.2 h))
  | succ n ih =>
    -- Operands and continuations both read their parts with one level less.
    obtain ⟨ihe, ihc⟩ := ih
    have fresh := expression_fresh n
    refine ⟨fun power ts e rest => ?_, fun power left ts e rest => ?_⟩
    · simp only [Expression]
      cases ts with
      | nil =>
        refine iff_of_false (gives_unexpected stop _ _ _) ?_
        rintro ⟨t, us, first, mid, hcons, -⟩
        cases hcons
      | cons t us =>
        simp only [Parser.expression, gives_bind, gives_pure]
        constructor
        · rintro ⟨first, hf, all, ha, rfl, rfl⟩
          exact ⟨t.token, words us, first.value, words first.rest, rfl,
            (gives_operand stop ihe fresh _ _ _ _).1 (gives_of_eq hf),
            (ihc _ _ _ _ _).1 (gives_of_eq ha)⟩
        · rintro ⟨u, vs, _, _, hcons, hoperand, hclimb⟩
          cases hcons
          obtain ⟨first, hf, rfl, rfl⟩ := (gives_operand stop ihe fresh _ _ _ _).2 hoperand
          obtain ⟨all, ha, rfl, rfl⟩ := (ihc _ _ _ _ _).2 hclimb
          exact ⟨first, hf, all, ha, rfl, rfl⟩
    · simp only [Climb]
      by_cases h : Stops power (words ts)
      · rw [hstop (n + 1) power left ts e rest h]
        refine (or_iff_left ?_).symm
        rintro ⟨t, us, longer, mid, hcons, hpower, -⟩
        rw [hcons, stops_cons] at h
        exact absurd h (Nat.not_le.2 hpower)
      · cases ts with
        | nil => exact (h (by simp [Stops])).elim
        | cons t us =>
          have hpower : power < t.token.power := by rwa [words_cons, stops_cons, Nat.not_le] at h
          rw [climb_go limit stop n left t us hpower]
          constructor
          · rintro ⟨longer, all, hl, ha, rfl, rfl⟩
            exact .inr ⟨t.token, words us, longer.value, words longer.rest, rfl, hpower,
              (gives_extend stop ihe fresh _ _ _ _ _).1 (gives_of_eq hl),
              (ihc _ _ _ _ _).1 (gives_of_eq ha)⟩
          · rintro (⟨hs, -⟩ | ⟨u, vs, _, _, hcons, -, hextend, hclimb⟩)
            · exact (h hs).elim
            · cases hcons
              obtain ⟨longer, hl, rfl, rfl⟩ :=
                (gives_extend stop ihe fresh _ _ _ _ _).2 hextend
              obtain ⟨all, ha, rfl, rfl⟩ := (ihc _ _ _ _ _).2 hclimb
              exact ⟨longer, all, hl, ha, rfl, rfl⟩

/-- A token list is parsed to a tree exactly if the rules read all of it as that tree. -/
theorem parse_eq_ok_iff {limit stop : Nat} {ts : List Located} {e : Expr} :
    parse limit stop ts = .ok e ↔ Expression limit 0 (words ts) e [] := by
  rw [← (gives_expression_climb limit stop limit).1]
  unfold parse
  cases h : Parser.expression limit stop limit 0 ts with
  | error fault =>
    refine iff_of_false ?_ (gives_error _ _ _)
    intro hok
    cases hok
  | ok r =>
    rw [gives_ok]
    obtain ⟨value, rest, hfewer⟩ := r
    cases rest with
    | nil =>
      refine ⟨fun hok => ?_, fun ⟨he, _⟩ => ?_⟩
      · cases hok
        exact ⟨rfl, rfl⟩
      · rw [← he]
        rfl
    | cons t us =>
      refine iff_of_false (fun hok => ?_) fun ⟨_, hnil⟩ => ?_
      · cases hok
      · cases hnil

end JmesPath.Rules
