import JmesPath.Proofs.Grammar.Rules

/-! # Names in front of parentheses

What stands in front of the opening parenthesis of a call is an expression whose tree is a
name alone.  Such an expression is a name in any number of parentheses, and a quoted name is
only refused where the opening parenthesis comes right behind it.

* `Called` — a name, grouped or not, stands in front of an opening parenthesis
* `Bare` — tokens that are a name in parentheses
* `expression_bare` — what is read as a name alone is a name in parentheses
* `dots_expression` — a name behind a dot goes on with brackets and calls only
-/

namespace JmesPath.Rules

/-- A token in a number of pairs of parentheses. -/
def grouped (depth : Nat) (t : Token) : List Token :=
  List.replicate depth .openParen ++ t :: List.replicate depth .closeParen

theorem grouped_succ (depth : Nat) (t : Token) (rest : List Token) :
    grouped (depth + 1) t ++ rest = .openParen :: (grouped depth t ++ .closeParen :: rest) := by
  rw [grouped, List.replicate_succ, List.replicate_succ']
  simp [grouped]

/-- Among tokens, a name stands in front of an opening parenthesis.  It can be in parentheses
    itself, and only then can it be quoted. -/
def Called (ts : List Token) (name : String) : Prop :=
  ∃ depth t, keyOf? t = some name ∧ (depth = 0 → t = .identifier name) ∧
    grouped depth t ++ [.openParen] <:+: ts

/-- Tokens in front that are a name in parentheses, and the tokens left. -/
inductive Bare (name : String) : List Token → List Token → Prop
  | identifier (rest : List Token) : Bare name (.identifier name :: rest) rest
  | quotedIdentifier {rest : List Token} :
      rest.head? ≠ some .openParen → Bare name (.quotedIdentifier name :: rest) rest
  | group {ts rest : List Token} :
      Bare name ts (.closeParen :: rest) → Bare name (.openParen :: ts) rest

theorem Bare.exists_grouped {name : String} {ts rest : List Token} (h : Bare name ts rest) :
    ∃ depth t, keyOf? t = some name ∧
      (depth = 0 → rest.head? = some .openParen → t = .identifier name) ∧
      ts = grouped depth t ++ rest := by
  induction h with
  | identifier rest => exact ⟨0, .identifier name, rfl, fun _ _ => rfl, rfl⟩
  | quotedIdentifier hrest =>
    exact ⟨0, .quotedIdentifier name, rfl, fun _ hopen => absurd hopen hrest, rfl⟩
  | group _ ih =>
    obtain ⟨depth, t, hkey, -, rfl⟩ := ih
    exact ⟨depth + 1, t, hkey, nofun, (grouped_succ depth t _).symm⟩

theorem Bare.called {name : String} {ts rest : List Token}
    (h : Bare name ts (.openParen :: rest)) : Called ts name := by
  obtain ⟨depth, t, hkey, hplain, rfl⟩ := h.exists_grouped
  exact ⟨depth, t, hkey, fun hdepth => hplain hdepth rfl, [], rest, by simp⟩

section

variable {R : Reading} {left e : Expr} {t : Token} {ts rest : List Token}

theorem Brackets.not_field (h : Brackets R left t ts e rest) (name : String) :
    e ≠ .field name := by
  cases h with
  | subscript h => cases h <;> nofun
  | all | filter | flatten => nofun

/-- An expression that goes on is more than a name. -/
theorem Extend.not_field (h : Extend R left t ts e rest) (name : String) :
    e ≠ .field name := by
  cases h with
  | values | dot | call => nofun
  | binary hnode => cases t <;> cases hnode <;> nofun
  | brackets h => exact h.not_field name

end

theorem climb_field {n power : Nat} {left : Expr} {name : String} {ts rest : List Token}
    (h : Climb n power left ts (.field name) rest) : left = .field name ∧ rest = ts := by
  induction n generalizing left ts with
  | zero => exact ⟨h.2.1.symm, h.2.2⟩
  | succ n ih =>
    rcases h with ⟨-, hleft, hrest⟩ | ⟨t, us, longer, mid, -, -, hextend, hclimb⟩
    · exact ⟨hleft.symm, hrest⟩
    · exact absurd (ih hclimb).1 (hextend.not_field name)

/-- A name alone is read from a name in parentheses. -/
theorem Operand.bare {R : Reading} {name : String} {t : Token} {ts rest : List Token}
    (hR : ∀ power ts rest, R power ts (.field name) rest → Bare name ts rest)
    (h : Operand R t ts (.field name) rest) : Bare name (t :: ts) rest := by
  cases h with
  | identifier => exact .identifier _
  | quotedIdentifier hopen => exact .quotedIdentifier hopen
  | group h => exact .group (hR _ _ _ h)
  | brackets h => exact absurd rfl (h.not_field name)

theorem expression_bare {n power : Nat} {name : String} {ts rest : List Token}
    (h : Expression n power ts (.field name) rest) : Bare name ts rest := by
  induction n generalizing power ts rest with
  | zero => exact h.elim
  | succ n ih =>
    obtain ⟨t, us, first, mid, rfl, hoperand, hclimb⟩ := h
    obtain ⟨rfl, rfl⟩ := climb_field hclimb
    exact hoperand.bare fun _ _ _ => ih

/-! ## Behind a dot -/

/-- The kinds of trees that are selected by a dot. -/
def dottedKinds : List String :=
  ["Field", "Function", "IndexExpression", "Projection", "MultiSelectList", "MultiSelectHash"]

/-- What binds tighter than a dot is a bracket or a call. -/
theorem Extend.dotted {R : Reading} {left e : Expr} {t : Token} {ts rest : List Token}
    (h : Extend R left t ts e rest) (htight : Token.dot.power < t.power) :
    e.kind ∈ dottedKinds := by
  cases h with
  | values | dot => exact absurd htight (Nat.lt_irrefl _)
  | binary hnode => cases t <;> cases hnode <;> exact absurd htight (by simp [Token.power])
  | call => simp [Expr.kind, dottedKinds]
  | brackets h =>
    cases h with
    | subscript h => cases h <;> simp [Expr.kind, dottedKinds]
    | all => simp [Expr.kind, dottedKinds]
    | filter | flatten => exact absurd htight (by decide)

theorem climb_dotted {n : Nat} {left e : Expr} {ts rest : List Token}
    (hleft : left.kind ∈ dottedKinds) (h : Climb n Token.dot.power left ts e rest) :
    e.kind ∈ dottedKinds := by
  induction n generalizing left ts with
  | zero =>
    obtain ⟨-, rfl, -⟩ := h
    exact hleft
  | succ n ih =>
    rcases h with ⟨-, rfl, -⟩ | ⟨t, us, longer, mid, -, htight, hextend, hclimb⟩
    · exact hleft
    · exact ih (hextend.dotted htight) hclimb

/-- A name that is read behind a dot becomes a tree of one of these kinds. -/
def Dots (R : Reading) : Prop :=
  ∀ t name ts e rest, keyOf? t = some name → R Token.dot.power (t :: ts) e rest →
    e.kind ∈ dottedKinds

/-- Where a dot does not project, it selects by a name or by a list of expressions. -/
theorem DotRest.dotted {R : Reading} (hR : Dots R) {e : Expr} {ts rest : List Token}
    (h : DotRest R Token.dot.power ts e rest) (hstar : ts.head? ≠ some .star) :
    e.kind ∈ dottedKinds := by
  cases h with
  | name hkey he => exact hR _ _ _ _ _ hkey he
  | star => exact absurd rfl hstar
  | list | hash => simp [Expr.kind, dottedKinds]

theorem dots_expression (n : Nat) : Dots (Expression n) := by
  intro t name ts e rest hkey h
  cases n with
  | zero => exact h.elim
  | succ n =>
    obtain ⟨_, us, first, mid, heq, hoperand, hclimb⟩ := h
    obtain ⟨rfl, rfl⟩ := List.cons.inj heq
    refine climb_dotted ?_ hclimb
    cases hoperand with
    | identifier | quotedIdentifier => simp [Expr.kind, dottedKinds]
    | brackets h => cases h <;> cases hkey
    | literal | current | not | ref | group | star | hash | list => cases hkey

end JmesPath.Rules
