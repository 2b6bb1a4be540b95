import JmesPath.Proofs.Eval.Elements
import JmesPath.Proofs.Grammar.Brackets
import JmesPath.Proofs.Grammar.Composition
import JmesPath.Proofs.NestingLimit

/-! # Chains of names and indices

What a chain of suffixes such as `.name[0].first` is read as depends on the power that it
is read with, since a dot reads what stands behind it with a power of its own.  Its outcome
does not: the steps are taken one after the other.

* `Key`, `Index` — a name and a number as they can be written in a query
* `Step`, `Step.text`, `Step.apply` — a suffix, how it is written and what it selects
* `climb_chain` — a chain behind an expression, at any power
* `projectionRest_chain` — a chain behind a projection
* `compilesTo_grouped` — a query in parentheses with something behind it
-/

namespace JmesPath

/-- A text that is split into one token. -/
structure Written (t : Token) where
  text : List Char
  place : Nat
  tokenizes : tokenize text = .ok [⟨t, place⟩]

theorem Written.spelled {t : Token} (w : Written t) : Rules.Spelled w.text [t] :=
  (Rules.tokens_iff (Cursor.start w.text) [t]).1 ⟨_, w.tokenizes, rfl⟩

/-- A name, with quotes or without. -/
structure Key where
  token : Token
  name : String
  named : Rules.keyOf? token = some name
  written : Written token

theorem Key.token_ne_star (k : Key) : k.token ≠ .star := by
  intro h
  have := k.named
  rw [h] at this
  cases this

/-- A number between brackets. -/
structure Index where
  value : Int
  written : Written (.number value)

/-- A suffix that selects one value: `.name` or `[0]`. -/
inductive Step
  | name (k : Key)
  | index (i : Index)

namespace Step

def text : Step → List Char
  | .name k => '.' :: k.written.text
  | .index i => '[' :: (i.written.text ++ [']'])

def tokens : Step → List Token
  | .name k => [.dot, k.token]
  | .index i => [.openBracket, .number i.value, .closeBracket]

/-- What a suffix selects: a member of an object or an element of an array, and `null` if
    there is none. -/
def apply : Step → Value → Value
  | .name k, .object members => (Members.get? members k.name).getD .null
  | .index i, .array items => (index? items i.value).getD .null
  | _, _ => .null

/-- The steps of a chain, one after the other. -/
def applyAll (steps : List Step) (v : Value) : Value := steps.foldl (fun v s => s.apply v) v

theorem apply_null (s : Step) : s.apply .null = .null := by
  cases s <;> rfl

@[simp] theorem applyAll_cons (s : Step) (steps : List Step) (v : Value) :
    applyAll (s :: steps) v = applyAll steps (s.apply v) := rfl

theorem applyAll_append (steps others : List Step) (v : Value) :
    applyAll (steps ++ others) v = applyAll others (applyAll steps v) := List.foldl_append

@[simp] theorem applyAll_null (steps : List Step) : applyAll steps .null = .null := by
  induction steps with
  | nil => rfl
  | cons s steps ih => rw [applyAll_cons, apply_null, ih]

end Step

namespace Rules

open Scanner Step

/-! ## Spelling chains -/

/-- A bracket is a word of its own in front of text that starts with no closing bracket. -/
theorem spelled_openBracket {cs : List Char} {ts : List Token} (h : Spelled cs ts)
    (hts : ts.head? ≠ some .closeBracket) : Spelled ('[' :: cs) (.openBracket :: ts) := by
  cases cs with
  | nil => exact .word rfl h
  | cons c cs =>
    refine .word (word_openBracket 0 cs ?_ ?_) h
    · rintro rfl
      cases h with
      | space hc _ => cases hc
      | word hword _ => cases hword
    · rintro rfl
      cases h with
      | space hc _ => cases hc
      | word hword _ =>
        cases hword.symm.trans (word_of_single (t := .closeBracket) rfl 0 cs)
        exact hts rfl

theorem breaks_chain (steps : List Step) : Breaks (steps.flatMap Step.text) := by
  cases steps with
  | nil => exact breaks_nil
  | cons s steps => cases s <;> exact breaks_cons.2 ⟨by decide, by decide⟩

/-- A number in front of text that starts with no digit. -/
theorem spelled_number (i : Index) {c : Char} {cs : List Char} {ts : List Token}
    (hc : c.isDigit = false) (h : Spelled (c :: cs) ts) :
    Spelled (i.written.text ++ c :: cs) (.number i.value :: ts) :=
  i.written.spelled.append_of_endsWord
    (fun t ht => by cases ht; exact endsWord_cons.2 hc) h

theorem spelled_step (s : Step) : Spelled s.text s.tokens := by
  cases s with
  | name k => exact .single rfl k.written.spelled
  | index i =>
    have hclose : Spelled [']'] [.closeBracket] := .single rfl .nil
    exact spelled_openBracket (spelled_number i rfl hclose) (by simp)

theorem spelled_chain (steps : List Step) :
    Spelled (steps.flatMap Step.text) (steps.flatMap Step.tokens) := by
  induction steps with
  | nil => exact .nil
  | cons s steps ih => exact (spelled_step s).append (breaks_chain steps) ih

/-! ## Reading chains -/

theorem head_chain_ne (steps : List Step) :
    (steps.flatMap Step.tokens).head? ≠ some .openParen := by
  cases steps with
  | nil => simp
  | cons s steps => cases s <;> simp [Step.tokens]

/-- A name starts an expression. -/
theorem operand_key {R : Reading} (k : Key) {ts : List Token} (hts : ts.head? ≠ some .openParen) :
    Operand R k.token ts (.field k.name) ts :=
  (operand_name_iff k.named hts).2 ⟨rfl, rfl⟩

/-- A name behind a dot, with what continues it at the power that the dot reads with. -/
theorem dotRest_key {n power : Nat} (k : Key) {steps : List Step} {e : Expr}
    {rest : List Token}
    (h : Climb n power (.field k.name) (steps.flatMap Step.tokens) e rest) :
    DotRest (Expression (n + 1)) power (k.token :: steps.flatMap Step.tokens) e rest :=
  .name k.named ⟨_, _, _, _, rfl, operand_key k (head_chain_ne steps), h⟩

theorem gets_key (k : Key) : Gets (.field k.name) = Returns (Step.name k).apply :=
  gets_leaf fun _ v => by cases v <;> rfl

theorem gets_index (i : Index) : Gets (.index i.value) = Returns (Step.index i).apply :=
  gets_leaf fun _ v => by cases v <;> rfl

theorem then_applyAll (A : Value → Outcome Value → Prop) (steps others : List Step) :
    Then (Then A (Returns (applyAll steps))) (Returns (applyAll others)) =
      Then A (Returns (applyAll (steps ++ others))) := by
  have happend : applyAll (steps ++ others) = fun v => applyAll others (applyAll steps v) :=
    funext (applyAll_append steps others)
  rw [then_returns_returns, happend]

theorem gets_sub_name {left e : Expr} {k : Key} {steps : List Step}
    (h : Gets e = Then (Gets (.field k.name)) (Returns (applyAll steps))) :
    Gets (.sub left e) = Then (Gets left) (Returns (applyAll (.name k :: steps))) := by
  have hright : Gets e = Returns (applyAll (.name k :: steps)) := by
    rw [h, gets_key, returns_then]
    rfl
  exact gets_sub hright (applyAll_null _)

/-- A chain behind an expression, read with a power that lets indices go on.  What is read
    has the outcome of the steps taken, and all of them are if names can go on, too. -/
theorem climb_chain (steps : List Step) {power : Nat} (hpower : power < 55) (left : Expr) :
    ∃ n e taken others, steps = taken ++ others ∧ (power < 40 → others = []) ∧
      Climb n power left (steps.flatMap Step.tokens) e (others.flatMap Step.tokens) ∧
      Gets e = Then (Gets left) (Returns (applyAll taken)) := by
  -- A dot reads a name and the indices behind it with a power of its own, so the induction
  -- is on the length: what it leaves is shorter than the chain, but not its tail.
  induction hlength : steps.length using Nat.strongRecOn generalizing steps power left with
  | _ length ih =>
    subst hlength
    cases steps with
    | nil => exact ⟨0, left, [], [], rfl, fun _ => rfl, climb_of_stops 0 left (stops_nil power),
        (then_returns_id left).symm⟩
    | cons s steps =>
      cases s with
      | index i =>
        obtain ⟨n, e, taken, others, rfl, hall, hclimb, hgets⟩ :=
          ih steps.length (by simp) steps hpower (.indexed left (.index i.value)) rfl
        refine ⟨n + 1, e, .index i :: taken, others, rfl, hall,
          .inr ⟨_, _, _, _, rfl, hpower, .brackets (.subscript (.index i.value _)), hclimb⟩, ?_⟩
        rw [hgets, gets_indexed, gets_index, then_returns_returns]
        rfl
      | name k =>
        by_cases hdot : power < 40
        · obtain ⟨n, e, taken, others, rfl, -, hclimb, hgets⟩ :=
            ih steps.length (by simp) steps (by decide : 40 < 55) (.field k.name) rfl
          have hlength : others.length < ((Step.name k) :: (taken ++ others)).length := by
            simp only [List.length_cons, List.length_append]
            omega
          obtain ⟨m, e', taken', others', rfl, hall, hclimb', hgets'⟩ :=
            ih others.length hlength others hpower (.sub left e) rfl
          have hright := dotRest_key k (climb_mono (Nat.le_max_left n m) hclimb)
          refine ⟨max n m + 1 + 1, e', .name k :: (taken ++ taken'), others', by simp, hall,
            .inr ⟨_, _, _, _, rfl, hdot, .dot (by simpa using k.token_ne_star) hright,
              climb_mono (Nat.le_succ_of_le (Nat.le_max_right n m)) hclimb'⟩, ?_⟩
          rw [hgets', gets_sub_name hgets, then_applyAll]
          rfl
        · have hstops : Stops power ((Step.name k :: steps).flatMap Step.tokens) :=
            stops_cons.2 (Nat.le_of_not_lt hdot)
          exact ⟨0, left, [], .name k :: steps, rfl, fun h => absurd h hdot,
            climb_of_stops 0 left hstops, (then_returns_id left).symm⟩

/-- A chain behind an expression, read with a power that lets names go on. -/
theorem climb_whole_chain (steps : List Step) {power : Nat} (hpower : power < 40) (left : Expr) :
    ∃ n e, Climb n power left (steps.flatMap Step.tokens) e [] ∧
      Gets e = Then (Gets left) (Returns (applyAll steps)) := by
  obtain ⟨n, e, taken, others, rfl, hall, hclimb, hgets⟩ :=
    climb_chain steps (Nat.lt_trans hpower (by decide)) left
  obtain rfl := hall hpower
  rw [List.append_nil] at hclimb ⊢
  exact ⟨n, e, hclimb, hgets⟩

/-- A chain behind a projection belongs to the projection, and is taken step by step. -/
theorem projectionRest_chain (steps : List Step) {power : Nat} (hpower : power < 40) :
    ∃ n e, ProjectionRest (Expression n) power (steps.flatMap Step.tokens) e [] ∧
      Gets e = Returns (applyAll steps) := by
  cases steps with
  | nil => exact ⟨0, .identity, .none (stops_nil 9), gets_identity⟩
  | cons s steps =>
    cases s with
    | name k =>
      obtain ⟨n, e, hclimb, hgets⟩ := climb_whole_chain steps hpower (.field k.name)
      refine ⟨n + 1, e, .dot (dotRest_key k hclimb), ?_⟩
      rw [hgets, gets_key, returns_then]
      rfl
    | index i =>
      obtain ⟨n, e, hclimb, hgets⟩ :=
        climb_whole_chain steps hpower (.indexed .identity (.index i.value))
      refine ⟨n + 1, e, .bracket
        ⟨_, _, _, _, rfl, .brackets (.subscript (.index i.value _)), hclimb⟩, ?_⟩
      rw [hgets, gets_indexed, gets_identity, gets_index, then_returns_returns, returns_then]
      rfl

/-- An operand behind a pipe, up to the end. -/
theorem climb_pipe {n : Nat} (left : Expr) {t : Token} {ts : List Token} {e : Expr}
    (h : Operand (Expression n) t ts e []) :
    Climb (n + 2) 0 left (.pipe :: t :: ts) (.pipe left e) [] := by
  have hread : Expression (n + 1) 1 (t :: ts) e [] :=
    ⟨_, _, _, _, rfl, h, climb_of_stops n e (stops_nil 1)⟩
  exact .inr ⟨_, _, _, _, rfl, by decide, .binary rfl hread, climb_of_stops _ _ (stops_nil 0)⟩

/-- A query in parentheses, continued to the end by what stands behind it. -/
theorem compilesTo_grouped {limit n : Nat} (q : Query limit) {text : List Char}
    {ts : List Token} {e : Expr} (htext : Spelled text ts) (hclimb : Climb n 0 q.tree ts e []) :
    CompilesTo (q.grouped ++ text) e := by
  obtain ⟨us, hspelled, hread⟩ := grouped_spelled q htext
  have hlevels := Nat.le_max_left limit n
  have hwhole : Expression (max limit n + 1) 0 (.openParen :: (us ++ .closeParen :: ts)) e [] :=
    ⟨_, _, _, _, rfl, operand_grouped hlevels hread, climb_mono (Nat.le_max_right limit n) hclimb⟩
  exact .of_compile (compile_eq_ok_iff.2 ⟨_, hspelled, hwhole⟩)

end Rules

end JmesPath
