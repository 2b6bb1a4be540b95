import JmesPath.Parser.Grammar

/-! # The grammar as relations

The productions, once more, as relations between the tokens in front, the tree that is
read, and the tokens left.  Positions play no part, and neither do errors: a rule says
what is read and when, and nothing about how the parser gets there.

* `Reading` — a way to read expressions of a binding power
* `Stops` — the next token does not continue an expression
* `Separated`, `Again` — items with commas between them
* `DotRest`, `ProjectionRest`, `Brackets` — what stands behind a dot, a projection, and
  an opening bracket
* `Operand`, `Extend` — how an expression starts, and how it goes on
* `Expression`, `Climb` — an expression for a number of levels
-/

namespace JmesPath.Rules

/-- Tokens in front, the tree they are read as, and the tokens left, for a binding
    power. -/
abbrev Reading := (power : Nat) → List Token → Expr → List Token → Prop

/-- The next token, if there is one, does not bind tighter than `power`. -/
def Stops (power : Nat) (ts : List Token) : Prop := ∀ t ∈ ts.head?, t.power ≤ power

/-- The name that a token can stand for as a key. -/
def keyOf? : Token → Option String
  | .identifier name => some name
  | .quotedIdentifier name => some name
  | _ => none

/-- The tree of an operator that stands between two expressions. -/
def binaryOf? : Token → Option (Expr → Expr → Expr)
  | .pipe => some .pipe
  | .or => some .or
  | .and => some .and
  | .compare op => some (.compare op)
  | _ => none

/-! ## Lists -/

section

variable {α : Type}

/-- What stands behind an item of a list: a comma and another item, or the end. -/
inductive Again (close : Token) : List Token → Bool → List Token → Prop
  | comma (next : List Token) : Again close (.comma :: next) true next
  | close (rest : List Token) : Again close (close :: rest) false rest

/-- One item or more, and what stands behind each of them. -/
inductive Separated (item : List Token → α → List Token → Prop)
    (again : List Token → Bool → List Token → Prop) :
    List Token → List α → List Token → Prop
  | last {ts mid rest : List Token} {a : α} :
      item ts a mid → again mid false rest → Separated item again ts [a] rest
  | more {ts mid next rest : List Token} {a : α} {as : List α} :
      item ts a mid → again mid true next → Separated item again next as rest →
      Separated item again ts (a :: as) rest

end

/-- A key, a colon, and an expression. -/
inductive Member (R : Reading) : List Token → String × Expr → List Token → Prop
  | intro {key : Token} {name : String} {ts rest : List Token} {e : Expr} :
      keyOf? key = some name → R 0 ts e rest → Member R (key :: .colon :: ts) (name, e) rest

/-- Expressions up to the closing bracket. -/
def Elements (R : Reading) : List Token → List Expr → List Token → Prop :=
  Separated (R 0) (Again .closeBracket)

/-- Members up to the closing brace. -/
def Members (R : Reading) : List Token → List (String × Expr) → List Token → Prop :=
  Separated (Member R) (Again .closeBrace)

/-- The arguments of a call, behind its opening parenthesis. -/
inductive Arguments (R : Reading) : List Token → List Expr → List Token → Prop
  | none (rest : List Token) : Arguments R (.closeParen :: rest) [] rest
  | some {ts rest : List Token} {es : List Expr} :
      Separated (R 0) (Again .closeParen) ts es rest → Arguments R ts es rest

/-! ## Projections -/

/-- What stands behind a dot. -/
inductive DotRest (R : Reading) (power : Nat) : List Token → Expr → List Token → Prop
  | name {t : Token} {name : String} {ts rest : List Token} {e : Expr} :
      keyOf? t = some name → R power (t :: ts) e rest → DotRest R power (t :: ts) e rest
  | star {ts rest : List Token} {e : Expr} :
      R power (.star :: ts) e rest → DotRest R power (.star :: ts) e rest
  | list {ts rest : List Token} {es : List Expr} :
      Elements R ts es rest → DotRest R power (.openBracket :: ts) (.multiList es) rest
  | hash {ts rest : List Token} {members : List (String × Expr)} :
      Members R ts members rest →
      DotRest R power (.openBrace :: ts) (.multiHash members) rest

/-- What a projection applies to its elements. -/
inductive ProjectionRest (R : Reading) (power : Nat) :
    List Token → Expr → List Token → Prop
  | none {ts : List Token} : Stops 9 ts → ProjectionRest R power ts .identity ts
  | bracket {ts rest : List Token} {e : Expr} :
      R power (.openBracket :: ts) e rest →
      ProjectionRest R power (.openBracket :: ts) e rest
  | filter {ts rest : List Token} {e : Expr} :
      R power (.filter :: ts) e rest → ProjectionRest R power (.filter :: ts) e rest
  | dot {ts rest : List Token} {e : Expr} :
      DotRest R power ts e rest → ProjectionRest R power (.dot :: ts) e rest

/-- The parts of a slice from a place on, up to the closing bracket. -/
inductive SliceParts : Grammar.Bounds → Nat → List Token → Grammar.Bounds → List Token → Prop
  | close (bounds : Grammar.Bounds) (index : Nat) (rest : List Token) :
      SliceParts bounds index (.closeBracket :: rest) bounds rest
  | colon {bounds result : Grammar.Bounds} {index : Nat} {ts rest : List Token} :
      index < 3 → SliceParts bounds (index + 1) ts result rest →
      SliceParts bounds index (.colon :: ts) result rest
  | number {bounds result : Grammar.Bounds} {index : Nat} {i : Int} {ts rest : List Token} :
      index < 3 → bounds.get index = none →
      SliceParts (bounds.set i index) index ts result rest →
      SliceParts bounds index (.number i :: ts) result rest

/-- A slice starts with a colon, or with a number in front of one. -/
inductive StartsSlice : List Token → Prop
  | colon (ts : List Token) : StartsSlice (.colon :: ts)
  | number (i : Int) (ts : List Token) : StartsSlice (.number i :: .colon :: ts)

/-- An index or a slice of the value of `left`, behind an opening bracket. -/
inductive Subscript (R : Reading) (left : Expr) : List Token → Expr → List Token → Prop
  | index (i : Int) (rest : List Token) :
      Subscript R left (.number i :: .closeBracket :: rest) (.indexed left (.index i)) rest
  | slice {ts mid rest : List Token} {bounds : Grammar.Bounds} {e : Expr} :
      StartsSlice ts → SliceParts .empty 0 ts bounds mid → ProjectionRest R 20 mid e rest →
      Subscript R left ts
        (.project (.indexed left (.slice bounds.start bounds.stop bounds.step)) e) rest

/-- A selection from the value of `left`, by a token that opens a bracket and what stands
    behind it. -/
inductive Brackets (R : Reading) (left : Expr) : Token → List Token → Expr → List Token → Prop
  | subscript {ts rest : List Token} {e : Expr} :
      Subscript R left ts e rest → Brackets R left .openBracket ts e rest
  | all {ts rest : List Token} {e : Expr} :
      ProjectionRest R 20 ts e rest →
      Brackets R left .openBracket (.star :: .closeBracket :: ts) (.project left e) rest
  | filter {ts mid rest : List Token} {condition e : Expr} :
      R 0 ts condition (.closeBracket :: mid) → ProjectionRest R 21 mid e rest →
      Brackets R left .filter ts (.filter left e condition) rest
  | flatten {ts rest : List Token} {e : Expr} :
      ProjectionRest R 9 ts e rest →
      Brackets R left .flatten ts (.project (.flatten left) e) rest

/-! ## Expressions -/

/-- How an expression starts: a token, and what stands behind it. -/
inductive Operand (R : Reading) : Token → List Token → Expr → List Token → Prop
  | literal (v : Value) (ts : List Token) : Operand R (.literal v) ts (.literal v) ts
  | identifier (name : String) (ts : List Token) :
      Operand R (.identifier name) ts (.field name) ts
  | quotedIdentifier {name : String} {ts : List Token} :
      ts.head? ≠ some .openParen → Operand R (.quotedIdentifier name) ts (.field name) ts
  | current (ts : List Token) : Operand R .current ts .current ts
  | not {ts rest : List Token} {e : Expr} :
      R 45 ts e rest → Operand R .not ts (.not e) rest
  | ref {ts rest : List Token} {e : Expr} :
      R 0 ts e rest → Operand R .ampersand ts (.ref e) rest
  | group {ts rest : List Token} {e : Expr} :
      R 0 ts e (.closeParen :: rest) → Operand R .openParen ts e rest
  | star {ts rest : List Token} {e : Expr} :
      ProjectionRest R 20 ts e rest → Operand R .star ts (.projectValues .identity e) rest
  | hash {ts rest : List Token} {members : List (String × Expr)} :
      Members R ts members rest → Operand R .openBrace ts (.multiHash members) rest
  | list {ts rest : List Token} {es : List Expr} :
      (∀ more, ts ≠ .star :: .closeBracket :: more) → Elements R ts es rest →
      Operand R .openBracket ts (.multiList es) rest
  | brackets {t : Token} {ts rest : List Token} {e : Expr} :
      Brackets R .identity t ts e rest → Operand R t ts e rest

/-- How an expression goes on: a token behind it, and what stands behind that. -/
inductive Extend (R : Reading) : Expr → Token → List Token → Expr → List Token → Prop
  | values {left e : Expr} {ts rest : List Token} :
      ProjectionRest R 40 ts e rest →
      Extend R left .dot (.star :: ts) (.projectValues left e) rest
  | dot {left e : Expr} {ts rest : List Token} :
      ts.head? ≠ some .star → DotRest R 40 ts e rest →
      Extend R left .dot ts (.sub left e) rest
  | binary {left e : Expr} {t : Token} {node : Expr → Expr → Expr} {ts rest : List Token} :
      binaryOf? t = some node → R t.power ts e rest → Extend R left t ts (node left e) rest
  | call {name : String} {es : List Expr} {ts rest : List Token} :
      Arguments R ts es rest → Extend R (.field name) .openParen ts (.call name es) rest
  | brackets {left e : Expr} {t : Token} {ts rest : List Token} :
      Brackets R left t ts e rest → Extend R left t ts e rest

mutual
/-- An expression that is read with a number of levels. -/
def Expression (levels power : Nat) (ts : List Token) (e : Expr) (rest : List Token) : Prop :=
  match levels with
  | 0 => False
  | n + 1 => ∃ t us first mid, ts = t :: us ∧ Operand (Expression n) t us first mid ∧
      Climb n power first mid e rest
termination_by structural levels

/-- The expression `left`, continued to `e` by what binds tighter than `power`. -/
def Climb (levels power : Nat) (left : Expr) (ts : List Token) (e : Expr)
    (rest : List Token) : Prop :=
  match levels with
  | 0 => Stops power ts ∧ e = left ∧ rest = ts
  | n + 1 => (Stops power ts ∧ e = left ∧ rest = ts) ∨
      ∃ t us longer mid, ts = t :: us ∧ power < t.power ∧
        Extend (Expression n) left t us longer mid ∧ Climb n power longer mid e rest
termination_by structural levels
end

end JmesPath.Rules
