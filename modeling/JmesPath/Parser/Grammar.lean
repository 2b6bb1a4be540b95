import JmesPath.Parser.Error
import JmesPath.Rest

/-! # Productions

Queries are parsed by binding power: a token either starts an expression or continues
the one in front of it, and an expression goes on as long as tokens bind tightly
enough.  The productions below say what stands behind each token.  They take the
parser of sub-expressions as an argument, and they run in any monad that can throw a
`ParseError`.

* `operand` — an expression that starts with a given token
* `extend` — an expression continued by a given token
* `projectionRest`, `dotRest` — what a projection applies to its elements
* `subscript`, `elements`, `members`, `arguments` — the insides of brackets,
  braces and parentheses
-/

namespace JmesPath.Grammar

/-- A parser of expressions: what comes next is taken as long as it binds tighter than
    `power`. -/
abbrev SubParser (m : Type → Type) :=
  (power : Nat) → (ts : List Located) → m (Rest Located ts.length Expr)

def peek (ts : List Located) : Option Token := ts.head?.map Located.token

/-- The place of the next token; behind the last one, the end of the query. -/
def place (stop : Nat) : List Located → Nat
  | [] => stop
  | t :: _ => t.start

/-- What continues a projection has at least this power. -/
def projectionPower : Nat := 10

/-- The parts of a slice. -/
structure Bounds where
  start : Option Int
  stop : Option Int
  step : Option Int
  deriving DecidableEq

namespace Bounds

def empty : Bounds := ⟨none, none, none⟩

def get (b : Bounds) : Nat → Option Int
  | 0 => b.start
  | 1 => b.stop
  | _ => b.step

def set (b : Bounds) (i : Int) : Nat → Bounds
  | 0 => { b with start := some i }
  | 1 => { b with stop := some i }
  | _ => { b with step := some i }

theorem get_set (b : Bounds) (i : Int) (index : Nat) : (b.set i index).get index = some i := by
  match index with
  | 0 | 1 | _ + 2 => rfl

end Bounds

section

variable {m : Type → Type} [Monad m] [MonadExceptOf ParseError m] {α : Type}
variable (stop : Nat) (parse : SubParser m)

def unexpected (ts : List Located) : m α :=
  throw (.unexpected (peek ts) (place stop ts))

def missing (wanted : Expected) (ts : List Located) : m α :=
  throw (.expected wanted (peek ts) (place stop ts))

def expect (wanted : Expected) (ts : List Located) : m (Rest Located ts.length Token) :=
  match ts with
  | [] => missing stop wanted []
  | t :: rest =>
    if wanted.accepts t.token then pure (.leaving t.token rest)
    else missing stop wanted (t :: rest)

/-- What stands behind an expression in a list; whether another one comes. -/
def moreElements (ts : List Located) : m (Rest Located ts.length Bool) :=
  match ts with
  | ⟨.comma, position⟩ :: rest =>
    match peek rest with
    | some .closeBracket => throw (.trailingComma position)
    | _ => pure (.leaving true rest)
  | ⟨.closeBracket, _⟩ :: rest => pure (.leaving false rest)
  | others => missing stop .commaOrBracket others

/-- Expressions with commas between them, up to the closing bracket. -/
def elements (ts : List Located) : m (Rest Located ts.length (List Expr)) :=
  Rest.list (parse 0) (moreElements stop) ts

def member (ts : List Located) : m (Rest Located ts.length (String × Expr)) := do
  let key ← expect stop .identifier ts
  let colon ← expect stop .colon key.rest
  let value ← parse 0 colon.rest
  let name := match key.value with
    | .identifier name => name
    | .quotedIdentifier name => name
    | _ => ""
  pure (key.andThen (colon.andThen (value.map (name, ·))))

/-- What stands behind a member; whether another one comes. -/
def moreMembers (ts : List Located) : m (Rest Located ts.length Bool) :=
  match ts with
  | ⟨.comma, _⟩ :: rest => pure (.leaving true rest)
  | ⟨.closeBrace, _⟩ :: rest => pure (.leaving false rest)
  | others => missing stop .commaOrBrace others

/-- Members with commas between them, up to the closing brace. -/
def members (ts : List Located) : m (Rest Located ts.length (List (String × Expr))) :=
  Rest.list (member stop parse) (moreMembers stop) ts

/-- What stands behind an argument; whether another one comes. -/
def moreArguments (ts : List Located) : m (Rest Located ts.length Bool) :=
  match ts with
  | ⟨.comma, _⟩ :: rest => pure (.leaving true rest)
  | others => do
    let close ← expect stop .closeParen others
    pure (close.map fun _ => false)

/-- The arguments of a call, read from behind its opening parenthesis. -/
def arguments (ts : List Located) : m (Rest Located ts.length (List Expr)) :=
  match ts with
  | ⟨.closeParen, _⟩ :: rest => pure (.leaving [] rest)
  | ts => Rest.list (parse 0) (moreArguments stop) ts

/-- What stands behind a dot. -/
def dotRest (power : Nat) (ts : List Located) : m (Rest Located ts.length Expr) :=
  match ts with
  | [] => unexpected stop []
  | t :: rest =>
    match t.token with
    | .identifier _ => parse power (t :: rest)
    | .quotedIdentifier _ => parse power (t :: rest)
    | .star => parse power (t :: rest)
    | .openBracket => do
      let items ← elements stop parse rest
      pure (items.map .multiList).succ
    | .openBrace => do
      let items ← members stop parse rest
      pure (items.map .multiHash).succ
    | _ => unexpected stop (t :: rest)

/-- What a projection applies to its elements: what stands behind it, or nothing if that
    binds too loosely. -/
def projectionRest (power : Nat) (ts : List Located) :
    m (Rest Located (ts.length + 1) Expr) :=
  match ts with
  | [] => pure (.leaving .identity [])
  | t :: rest =>
    if t.token.power < projectionPower then pure (.leaving .identity (t :: rest))
    else match t.token with
      | .openBracket => do
        let e ← parse power (t :: rest)
        pure e.succ
      | .filter => do
        let e ← parse power (t :: rest)
        pure e.succ
      | .dot => do
        let e ← dotRest stop parse power rest
        pure e.succ.succ
      | _ => unexpected stop (t :: rest)

/-- The parts of a slice from a place on, up to the closing bracket. -/
def sliceParts (bounds : Bounds) (index : Nat) :
    (ts : List Located) → m (Rest Located (ts.length + 1) Bounds)
  | [] => if index < 3 then unexpected stop [] else missing stop .closeBracket []
  | t :: rest =>
    match t.token with
    | .closeBracket => pure (Rest.leaving bounds rest).succ
    | .colon =>
      if index < 3 then do
        let r ← sliceParts bounds (index + 1) rest
        pure r.succ
      else missing stop .closeBracket (t :: rest)
    | .number i =>
      if index < 3 then
        -- Two numbers in a row leave no place for the second one.
        if (bounds.get index).isNone then do
          let r ← sliceParts (bounds.set i index) index rest
          pure r.succ
        else unexpected stop (t :: rest)
      else missing stop .closeBracket (t :: rest)
    | _ =>
      if index < 3 then unexpected stop (t :: rest)
      else missing stop .closeBracket (t :: rest)

/-- A slice, which is a projection, from its first part on. -/
def sliceRest (left : Expr) (ts : List Located) : m (Rest Located (ts.length + 1) Expr) := do
  let bounds ← sliceParts stop .empty 0 ts
  let ⟨first, last, step⟩ := bounds.value
  let right ← projectionRest stop parse Token.star.power bounds.rest
  pure (bounds.resumed
    (right.map fun e => .project (.indexed left (.slice first last step)) e))

/-- An index or a slice, from its number or colon on. -/
def subscript (left : Expr) (ts : List Located) : m (Rest Located (ts.length + 1) Expr) :=
  match ts with
  | ⟨.number i, position⟩ :: rest =>
    match peek rest with
    | some .colon => sliceRest stop parse left (⟨.number i, position⟩ :: rest)
    | _ => do
      let close ← expect stop .closeBracket rest
      pure (close.map fun _ => .indexed left (.index i)).succ.succ
  | ts => sliceRest stop parse left ts

/-- A filter, read from behind its opening bracket. -/
def filterRest (left : Expr) (ts : List Located) : m (Rest Located ts.length Expr) := do
  let condition ← parse 0 ts
  let close ← expect stop .closeBracket condition.rest
  let right ← match peek close.rest with
    -- A flatten is not part of the projection but flattens its result.
    | some .flatten => pure (.leaving .identity close.rest)
    | _ => projectionRest stop parse Token.filter.power close.rest
  pure (condition.andThen (close.resumed
    (right.map fun e => .filter left e condition.value)))

/-- A flattened array, read from behind its brackets. -/
def flattenRest (left : Expr) (ts : List Located) : m (Rest Located (ts.length + 1) Expr) := do
  let right ← projectionRest stop parse Token.flatten.power ts
  pure (right.map fun e => .project (.flatten left) e)

/-- A projection of an array, read from behind its bracketed star. -/
def starRest (left : Expr) (ts : List Located) : m (Rest Located (ts.length + 1) Expr) := do
  let right ← projectionRest stop parse Token.star.power ts
  pure (right.map fun e => .project left e)

/-- A projection of the value at hand, or a list of results; read from behind its opening
    bracket. -/
def bracketOperand (ts : List Located) : m (Rest Located (ts.length + 1) Expr) :=
  match ts with
  | ⟨.star, _⟩ :: ⟨.closeBracket, _⟩ :: rest => do
    let e ← starRest stop parse .identity rest
    pure e.succ.succ
  | ts => do
    let items ← elements stop parse ts
    pure (items.map .multiList).succ

/-- An expression that starts with `t`. -/
def operand (t : Located) (ts : List Located) : m (Rest Located (ts.length + 1) Expr) :=
  let leaf (e : Expr) : m (Rest Located (ts.length + 1) Expr) :=
    pure (.leaving e ts)
  match t.token with
  | .literal v => leaf (.literal v)
  | .identifier name => leaf (.field name)
  | .quotedIdentifier name =>
    match peek ts with
    | some .openParen => throw (.quotedFunctionName t.start)
    | _ => leaf (.field name)
  | .current => leaf .current
  | .not => do
    let e ← parse Token.not.power ts
    pure (e.map .not).succ
  | .ampersand => do
    let e ← parse Token.ampersand.power ts
    pure (e.map .ref).succ
  | .openParen => do
    let e ← parse 0 ts
    let close ← expect stop .closeParen e.rest
    pure (e.andThen (close.map fun _ => e.value)).succ
  | .star =>
    match peek ts with
    -- The star is the last element of a list.
    | some .closeBracket => leaf (.projectValues .identity .identity)
    | _ => do
      let right ← projectionRest stop parse Token.star.power ts
      pure (right.map fun e => .projectValues .identity e)
  | .filter => do
    let e ← filterRest stop parse .identity ts
    pure e.succ
  | .flatten => flattenRest stop parse .identity ts
  | .openBrace => do
    let items ← members stop parse ts
    pure (items.map .multiHash).succ
  | .openBracket =>
    match peek ts with
    | some (.number _) => subscript stop parse .identity ts
    | some .colon => subscript stop parse .identity ts
    | _ => bracketOperand stop parse ts
  | _ => throw (.unexpected (some t.token) t.start)

/-- The expression `left`, continued by `t`. -/
def extend (left : Expr) (t : Located) (ts : List Located) :
    m (Rest Located (ts.length + 1) Expr) :=
  let binary (node : Expr → Expr → Expr) : m (Rest Located (ts.length + 1) Expr) := do
    let right ← parse t.token.power ts
    pure (right.map (node left)).succ
  match t.token with
  | .dot =>
    match ts with
    | ⟨.star, _⟩ :: rest => do
      let right ← projectionRest stop parse Token.dot.power rest
      pure (right.map (.projectValues left)).succ
    | ts => do
      let right ← dotRest stop parse Token.dot.power ts
      pure (right.map (.sub left)).succ
  | .pipe => binary .pipe
  | .or => binary .or
  | .and => binary .and
  | .compare op => binary (.compare op)
  | .openParen =>
    match left with
    | .field name => do
      let args ← arguments stop parse ts
      pure (args.map (.call name)).succ
    -- Only a bare name can be called.
    | _ => throw (.invalidFunctionTarget t.start)
  | .filter => do
    let e ← filterRest stop parse left ts
    pure e.succ
  | .flatten => flattenRest stop parse left ts
  | .openBracket =>
    match peek ts with
    | some (.number _) => subscript stop parse left ts
    | some .colon => subscript stop parse left ts
    | _ => do
      let star ← expect stop .star ts
      let close ← expect stop .closeBracket star.rest
      let e ← starRest stop parse left close.rest
      pure (star.andThen (close.resumed e)).succ
  | _ => throw (.unexpected (some t.token) t.start)

end

end JmesPath.Grammar
