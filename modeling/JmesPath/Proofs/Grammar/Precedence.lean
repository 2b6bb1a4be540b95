import JmesPath.Proofs.Grammar.Composition
import JmesPath.Proofs.Grammar.Limit

/-! # Operators between operands

The parser reads a row of operands with operators between them from left to right, and each
operator reads its right side with its own power.  The tree that comes out is the one that
is found from the top: its root is the operator that binds most loosely, and the last one of
those.

* `Atom`, `Operation` — an operand of one token, and an operator with the operand behind it
* `Operator.rank` — how tightly an operator binds
* `Loosest` — the last one of the loosest operators of a row, and what stands around it
* `rowTree` — the tree of a row, from the top
* `climb_row` — a row is read as its tree, whatever looser operator goes on behind it
* `parse_row` — a token list that is a row
-/

namespace JmesPath

/-- An operand that is one token. -/
inductive Atom
  | identifier (name : String)
  | quotedIdentifier (name : String)
  | current
  | literal (v : Value)

namespace Atom

def token : Atom → Token
  | .identifier name => .identifier name
  | .quotedIdentifier name => .quotedIdentifier name
  | .current => .current
  | .literal v => .literal v

def node : Atom → Expr
  | .identifier name => .field name
  | .quotedIdentifier name => .field name
  | .current => .current
  | .literal v => .literal v

end Atom

/-- How tightly an operator binds, from loose to tight. -/
def Operator.rank : Operator → Nat
  | .pipe => 0
  | .or => 1
  | .and => 2
  | .compare _ => 3

/-- An operator, and the operand behind it. -/
structure Operation where
  op : Operator
  operand : Atom

def Operation.tokens (o : Operation) : List Token := [o.op.token, o.operand.token]

/-- The last one of the loosest operators of a row, with what stands in front of it and
    behind it. -/
structure Loosest (row : List Operation) where
  before : List Operation
  root : Operation
  after : List Operation
  split : row = before ++ root :: after
  before_ge : ∀ o ∈ before, root.op.rank ≤ o.op.rank
  after_gt : ∀ o ∈ after, root.op.rank < o.op.rank

namespace Loosest

variable {row : List Operation}

theorem root_mem (l : Loosest row) : l.root ∈ row := by
  obtain ⟨before, root, after, rfl, -, -⟩ := l
  exact List.mem_append_right _ List.mem_cons_self

theorem before_subset (l : Loosest row) : l.before ⊆ row := by
  obtain ⟨before, root, after, rfl, -, -⟩ := l
  exact List.subset_append_left _ _

theorem after_subset (l : Loosest row) : l.after ⊆ row := by
  obtain ⟨before, root, after, rfl, -, -⟩ := l
  exact fun o ho => List.mem_append_right _ (List.mem_cons_of_mem _ ho)

theorem rank_le (l : Loosest row) : ∀ o ∈ row, l.root.op.rank ≤ o.op.rank := by
  obtain ⟨before, root, after, rfl, hbefore, hafter⟩ := l
  intro o ho
  rcases List.mem_append.1 ho with ho | ho
  · exact hbefore o ho
  · rcases List.mem_cons.1 ho with rfl | ho
    · exact Nat.le_refl _
    · exact Nat.le_of_lt (hafter o ho)

theorem length_split (l : Loosest row) :
    row.length = l.before.length + l.after.length + 1 := by
  obtain ⟨before, root, after, rfl, -, -⟩ := l
  simp only [List.length_append, List.length_cons]
  omega

theorem tokens_split (l : Loosest row) : row.flatMap Operation.tokens =
    l.before.flatMap Operation.tokens ++
      (l.root.tokens ++ l.after.flatMap Operation.tokens) := by
  obtain ⟨before, root, after, rfl, -, -⟩ := l
  rw [List.flatMap_append, List.flatMap_cons]

/-- Every row of one operation or more has a loosest operator: the first one if all others
    are tighter, and otherwise that of the others. -/
def find (first : Operation) : (others : List Operation) → Loosest (first :: others)
  | [] =>
    { before := []
      root := first
      after := []
      split := rfl
      before_ge := List.forall_mem_nil _
      after_gt := List.forall_mem_nil _ }
  | second :: others =>
    let l := find second others
    if h : first.op.rank < l.root.op.rank then
      { before := []
        root := first
        after := second :: others
        split := rfl
        before_ge := List.forall_mem_nil _
        after_gt := fun o ho => Nat.lt_of_lt_of_le h (l.rank_le o ho) }
    else
      { before := first :: l.before
        root := l.root
        after := l.after
        split := congrArg (first :: ·) l.split
        before_ge := List.forall_mem_cons.2 ⟨Nat.le_of_not_lt h, l.before_ge⟩
        after_gt := l.after_gt }

end Loosest

/-- The tree of a row of operands: the operand alone, or the loosest operator with the trees
    of what stands in front of it and behind it. -/
def rowTree (first : Atom) : List Operation → Expr
  | [] => first.node
  | o :: others =>
    (Loosest.find o others).root.op.node (rowTree first (Loosest.find o others).before)
      (rowTree (Loosest.find o others).root.operand (Loosest.find o others).after)
termination_by row => row.length
decreasing_by
  all_goals
    have := (Loosest.find o others).length_split
    omega

namespace Rules

/-! ## Powers -/

theorem rank_le_iff (a b : Operator) : a.rank ≤ b.rank ↔ a.token.power ≤ b.token.power := by
  cases a <;> cases b <;> simp [Operator.rank, Operator.token, Token.power]

theorem rank_lt_iff (a b : Operator) : a.rank < b.rank ↔ a.token.power < b.token.power := by
  rw [← Nat.not_le, rank_le_iff, Nat.not_le]

/-! ## Reading rows -/

/-- What stands behind a row: nothing, or an operator that is no tighter than the row's. -/
def Looser (row : List Operation) (rest : List Token) : Prop :=
  rest = [] ∨ ∃ op ts, rest = Operator.token op :: ts ∧ ∀ o ∈ row, op.rank ≤ o.op.rank

theorem Looser.stops {row : List Operation} {rest : List Token} (h : Looser row rest)
    {o : Operation} (ho : o ∈ row) : Stops o.op.token.power rest := by
  rcases h with rfl | ⟨op, ts, rfl, hop⟩
  · exact stops_nil _
  · exact stops_cons.2 ((rank_le_iff _ _).1 (hop o ho))

theorem Looser.mono {row part : List Operation} {rest : List Token} (h : Looser row rest)
    (hpart : part ⊆ row) : Looser part rest := by
  rcases h with rfl | ⟨op, ts, rfl, hop⟩
  · exact .inl rfl
  · exact .inr ⟨op, ts, rfl, fun o ho => hop o (hpart ho)⟩

/-- Behind an operand stands no parenthesis. -/
theorem head_row_ne {row : List Operation} {rest : List Token} (h : Looser row rest) :
    (row.flatMap Operation.tokens ++ rest).head? ≠ some .openParen := by
  cases row with
  | nil =>
    rcases h with rfl | ⟨op, ts, rfl, -⟩
    · simp
    · cases op <;> simp [Operator.token]
  | cons o row =>
    obtain ⟨op, x⟩ := o
    cases op <;> simp [Operation.tokens, Operator.token]

theorem operand_atom {R : Reading} (x : Atom) {ts : List Token}
    (hts : ts.head? ≠ some .openParen) : Operand R x.token ts x.node ts := by
  cases x with
  | identifier name => exact .identifier name ts
  | quotedIdentifier name => exact .quotedIdentifier hts
  | current => exact .current ts
  | literal v => exact .literal v ts

/-- A row whose operators are all tighter than a power is read as its tree with that power,
    and reading goes on behind it. -/
theorem climb_row (first : Atom) (row : List Operation) {n power : Nat} {e : Expr}
    {rest last : List Token} (hpower : ∀ o ∈ row, power < o.op.token.power)
    (hrest : Looser row rest) (h : Climb n power (rowTree first row) rest e last) :
    ∃ m, Climb m power first.node (row.flatMap Operation.tokens ++ rest) e last := by
  -- The row is cut at its root: what stands behind the root is read first, with the root's
  -- power, and then the root with its right side stands behind the front of the row.
  induction first, row using rowTree.induct generalizing n power e rest last with
  | case1 first =>
    rw [rowTree] at h
    exact ⟨n, h⟩
  | case2 first o others ihbefore ihafter =>
    rw [rowTree] at h
    generalize Loosest.find o others = l at ihbefore ihafter h
    -- The right side of the root ends where the row ends.
    obtain ⟨k, hright⟩ := ihafter (fun o ho => (rank_lt_iff _ _).1 (l.after_gt o ho))
      (hrest.mono l.after_subset) (climb_of_stops 0 _ (hrest.stops l.root_mem))
    have hexpression : Expression (k + 1) l.root.op.token.power
        (l.root.operand.token :: (l.after.flatMap Operation.tokens ++ rest))
        (rowTree l.root.operand l.after) rest :=
      ⟨_, _, _, _, rfl, operand_atom _ (head_row_ne (hrest.mono l.after_subset)), hright⟩
    have hclimb : Climb (max (k + 1) n + 1) power (rowTree first l.before)
        (l.root.tokens ++ (l.after.flatMap Operation.tokens ++ rest)) e last :=
      .inr ⟨_, _, _, _, rfl, hpower _ l.root_mem,
        .binary (binaryOf?_token _) (expression_mono (Nat.le_max_left _ _) hexpression),
        climb_mono (Nat.le_max_right _ _) h⟩
    rw [l.tokens_split, List.append_assoc, List.append_assoc]
    exact ihbefore (fun o ho => hpower o (l.before_subset ho)) (.inr ⟨_, _, rfl, l.before_ge⟩) hclimb

theorem expression_row (first : Atom) (row : List Operation) :
    ∃ n, Expression n 0 (first.token :: row.flatMap Operation.tokens) (rowTree first row) [] := by
  have hrest : Looser row [] := .inl rfl
  obtain ⟨n, hclimb⟩ := climb_row first row (fun o _ => o.op.power_pos) hrest
    (climb_of_stops 0 _ (stops_nil 0))
  rw [List.append_nil] at hclimb
  have hhead := head_row_ne hrest
  rw [List.append_nil] at hhead
  exact ⟨n + 1, _, _, _, _, rfl, operand_atom first hhead, hclimb⟩

end Rules

open Rules Grammar

/-- A row of operands with operators between them is parsed to its tree, unless the limit is
    hit; and a limit of more levels than the row has tokens is not. -/
theorem parse_row (first : Atom) (row : List Operation) {ts : List Located}
    (h : words ts = first.token :: row.flatMap Operation.tokens) (limit stop : Nat) :
    parse limit stop ts = .ok (rowTree first row) ∨
      limit ≤ ts.length ∧
        ∃ position, parse limit stop ts = .error (.nestingTooDeep limit position) := by
  obtain ⟨n, hread⟩ := expression_row first row
  have hparse : parse (max limit n) stop ts = .ok (rowTree first row) :=
    parse_eq_ok_iff.2 (h ▸ expression_mono (Nat.le_max_right limit n) hread)
  have hcut := cut_parse (Nat.le_max_left limit n) stop ts
  rw [hparse] at hcut
  generalize parse limit stop ts = outcome at hcut ⊢
  cases hcut with
  | ok => exact .inl rfl
  | tooDeep position _ hlength => exact .inr ⟨hlength, position, rfl⟩

/-- `a | b == @ && c || d | e`: the root is the last pipe, and within its left side the
    alternative stands above the conjunction. -/
theorem parse_row_of_mixed_operators :
    let ts : List Located := [⟨.identifier "a", 0⟩, ⟨.pipe, 2⟩, ⟨.quotedIdentifier "b", 4⟩,
      ⟨.compare .equal, 8⟩, ⟨.current, 11⟩, ⟨.and, 13⟩, ⟨.identifier "c", 16⟩, ⟨.or, 18⟩,
      ⟨.literal .null, 21⟩, ⟨.pipe, 28⟩, ⟨.identifier "e", 30⟩]
    let row : List Operation := [⟨.pipe, .quotedIdentifier "b"⟩, ⟨.compare .equal, .current⟩,
      ⟨.and, .identifier "c"⟩, ⟨.or, .literal .null⟩, ⟨.pipe, .identifier "e"⟩]
    words ts = (Atom.identifier "a").token :: row.flatMap Operation.tokens ∧
      parse 12 31 ts = .ok (.pipe (.pipe (.field "a")
        (.or (.and (.compare .equal (.field "b") .current) (.field "c")) (.literal .null)))
        (.field "e")) := by
  intro ts row
  have hwords : words ts = (Atom.identifier "a").token :: row.flatMap Operation.tokens := rfl
  have htree : rowTree (.identifier "a") row = .pipe (.pipe (.field "a")
      (.or (.and (.compare .equal (.field "b") .current) (.field "c")) (.literal .null)))
      (.field "e") := by cbv
  refine ⟨hwords, ?_⟩
  rcases parse_row (.identifier "a") row hwords 12 31 with hok | ⟨hlength, -⟩
  · rw [hok, htree]
  · exact absurd hlength (by decide)

end JmesPath
