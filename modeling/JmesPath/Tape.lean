import JmesPath.Parser.Grammar

/-! # Parsing in place

The tokens of a query stand on a tape, with a mark behind the last one.  A parser reads
the tape from left to right.  It clears a place when it takes the token that stands there,
it counts the levels that are in use, and it gives them back when an expression ends.

The tape keeps a log, and a count of the expressions that are not finished.  Nothing is
decided by them.

The productions call each other through `Tape.Parsers`, so that each of them is written down
without the others.  The calls are closed round by round.

* `Tape` — tokens, the place of the next one, and the level
* `Tape.Event`, `Tape.Entry` — what the log tells
* `Tape.Run` — a computation that works on a tape and may fail
* `Tape.look`, `Tape.advance`, `Tape.expect` — what productions do with a tape
* `Tape.Parsers` — the productions that call themselves
* `Tape.expression`, `Tape.climb` — expressions
* `Tape.parsers` — so many calls inside each other
* `Tape.parse` — a whole tape
-/

namespace JmesPath

/-- A place on a tape; the token is missing if it was taken, and behind the last one. -/
structure Slot where
  token : Option Token
  start : Nat

namespace Tape

/-- What a parser does. -/
inductive Event
  | look (place : Nat)
  | take (place : Nat)
  /-- An expression is asked for. -/
  | call
  /-- One more level is in use. -/
  | raise
  /-- The expression that was asked for may have the level. -/
  | letIn
  /-- An expression is continued by the token taken last. -/
  | extend
  /-- The level of an expression is given back. -/
  | lower
  /-- An expression is finished that was asked for at the level `found`. -/
  | answer (found : Nat) (success : Bool)
  deriving DecidableEq

/-- An event, and the state in which it happens. -/
structure Entry where
  event : Event
  index : Nat
  depth : Nat
  opened : Nat

end Tape

/-- Tokens that are read from left to right.  The last entry of the log comes first. -/
structure Tape where
  slots : List Slot
  /-- The place of the next token. -/
  index : Nat
  /-- How many levels are in use. -/
  depth : Nat
  /-- How many expressions were let in and are not finished. -/
  opened : Nat
  log : List Tape.Entry

namespace Tape

/-- The tape with the tokens `ts`, of a query of the length `stop`. -/
def ofTokens (stop : Nat) (ts : List Located) : Tape :=
  ⟨ts.map (fun t => ⟨some t.token, t.start⟩) ++ [⟨none, stop⟩], 0, 0, 0, []⟩

/-- The place of the mark behind the tokens. -/
def last (s : Tape) : Nat := s.slots.length - 1

def slotAt (s : Tape) (place : Nat) : Slot := s.slots.getD place ⟨none, 0⟩

def noted (s : Tape) (event : Event) : Tape :=
  { s with log := ⟨event, s.index, s.depth, s.opened⟩ :: s.log }

/-- The next token is taken and its place is cleared. -/
def cleared (s : Tape) : Tape :=
  { s with
    slots := s.slots.modify s.index fun slot => { slot with token := none }
    index := s.index + 1 }

def raised (s : Tape) : Tape := { s with depth := s.depth + 1 }

def admitted (s : Tape) : Tape := { s with opened := s.opened + 1 }

/-- An expression that was let in is finished. -/
def lowered (s : Tape) : Tape := { s with depth := s.depth - 1, opened := s.opened - 1 }

def resetTo (s : Tape) (depth : Nat) : Tape := { s with depth := depth }

/-- A computation that works on a tape.  It may fail, and it may be cut off. -/
abbrev Run (α : Type) := ExceptT ParseError (StateT Tape Option) α

/-! ## Tokens -/

def note {m : Type → Type} [MonadStateOf Tape m] (event : Event) : m Unit :=
  modify fun s => s.noted event

/-- What stands `offset` places behind the next token, or at the end of the tape. -/
def look (offset : Nat) : Run Slot := do
  let s ← get
  let place := min (s.index + offset) s.last
  note (.look place)
  pure (s.slotAt place)

def peek (offset : Nat) : Run (Option Token) := do
  let slot ← look offset
  pure slot.token

/-- Takes the next token; the mark at the end of the tape is not taken. -/
def advance : Run Slot := do
  let s ← get
  if s.last ≤ s.index then look 0
  else
    note (.take s.index)
    modify cleared
    pure (s.slotAt s.index)

def unexpected {α : Type} : Run α := do
  let slot ← look 0
  throw (.unexpected slot.token slot.start)

def missing {α : Type} (wanted : Expected) : Run α := do
  let slot ← look 0
  throw (.expected wanted slot.token slot.start)

def expect (wanted : Expected) : Run Unit := do
  if (← peek 0).any wanted.accepts then
    let _ ← advance
  else missing wanted

/-- One more level, unless all of them are in use. -/
def enter (limit : Nat) : Run Unit := do
  let s ← get
  if limit ≤ s.depth then
    let slot ← look 0
    throw (.nestingTooDeep limit slot.start)
  else
    modify raised
    note .raise

/-- How tightly a token binds; the end of the tape does not bind. -/
def powerOf : Option Token → Nat
  | some t => t.power
  | none => 0

/-! ## Brackets without expressions -/

/-- The parts of a slice from a place on, up to the closing bracket. -/
def sliceParts (bounds : Grammar.Bounds) (index : Nat) : Run Grammar.Bounds := do
  match ← peek 0 with
  | some .closeBracket => pure bounds
  | found =>
    if _ : index < 3 then
      match found with
      | some .colon =>
        let _ ← advance
        sliceParts bounds (index + 1)
      | some (.number i) =>
        if _ : (bounds.get index).isNone then
          let _ ← advance
          sliceParts (bounds.set i index) index
        else unexpected
      | _ => unexpected
    else pure bounds
termination_by 2 * (3 - index) + if (bounds.get index).isNone then 1 else 0
decreasing_by
  · split <;> split <;> omega
  · have hfree : (bounds.get index).isNone := ‹_›
    rw [bounds.get_set i index, if_pos hfree]
    exact Nat.lt_succ_self _

def slicePart : Run Expr := do
  let bounds ← sliceParts .empty 0
  expect .closeBracket
  pure (.slice bounds.start bounds.stop bounds.step)

def indexPart : Run Expr := do
  let slot ← advance
  match slot.token with
  | some (.number i) =>
    expect .closeBracket
    pure (.index i)
  | _ => throw (.unexpected slot.token slot.start)

/-- The inside of brackets that start with a number or a colon. -/
def indexOrSlice : Run Expr := do
  match ← peek 0 with
  | some .colon => slicePart
  | _ =>
    match ← peek 1 with
    | some .colon => slicePart
    | _ => indexPart

/-! ## Lists -/

/-- An item, and others behind it if `more` says so. -/
def items {α : Type} (item : Run α) (more : Run Bool) (others : Run (List α)) :
    Run (List α) := do
  let first ← item
  if ← more then
    let rest ← others
    pure (first :: rest)
  else pure [first]

def moreArguments : Run Bool := do
  match ← peek 0 with
  | some .comma =>
    let _ ← advance
    pure true
  | _ =>
    expect .closeParen
    pure false

def moreElements : Run Bool := do
  match ← peek 0 with
  | some .comma =>
    let comma ← advance
    match ← peek 0 with
    | some .closeBracket => throw (.trailingComma comma.start)
    | _ => pure true
  | some .closeBracket =>
    expect .closeBracket
    pure false
  | _ => missing .commaOrBracket

def moreMembers : Run Bool := do
  match ← peek 0 with
  | some .comma =>
    let _ ← advance
    pure true
  | some .closeBrace =>
    let _ ← advance
    pure false
  | _ => missing .commaOrBrace

def memberName : Run String := do
  let slot ← advance
  match slot.token with
  | some (.identifier name) => pure name
  | some (.quotedIdentifier name) => pure name
  | _ => throw (.expected .identifier slot.token slot.start)

/-! ## Expressions -/

/-- The productions that are called from inside themselves. -/
structure Parsers where
  expression (power : Nat) : Run Expr
  climb (power : Nat) (left : Expr) : Run Expr
  someArguments : Run (List Expr)
  elements : Run (List Expr)
  members : Run (List (String × Expr))

section

variable (limit : Nat) (self : Parsers)

/-- What stands behind a dot. -/
def dotRest (power : Nat) : Run Expr := do
  match ← peek 0 with
  | some (.identifier _) => self.expression power
  | some (.quotedIdentifier _) => self.expression power
  | some .star => self.expression power
  | some .openBracket =>
    let _ ← advance
    let items ← self.elements
    pure (.multiList items)
  | some .openBrace =>
    let _ ← advance
    let pairs ← self.members
    pure (.multiHash pairs)
  | _ => unexpected

/-- What a projection applies to its elements. -/
def projectionRest (power : Nat) : Run Expr := do
  if powerOf (← peek 0) < Grammar.projectionPower then pure .identity
  else
    match ← peek 0 with
    | some .openBracket => self.expression power
    | some .filter => self.expression power
    | some .dot =>
      let _ ← advance
      dotRest self power
    | _ => unexpected

/-- A filter, read from behind its opening bracket. -/
def filterRest (left : Expr) : Run Expr := do
  let condition ← self.expression 0
  expect .closeBracket
  match ← peek 0 with
  | some .flatten => pure (.filter left .identity condition)
  | _ =>
    let right ← projectionRest self Token.filter.power
    pure (.filter left right condition)

/-- An index or a slice of `left`; a slice is a projection. -/
def projectIfSlice (left part : Expr) : Run Expr := do
  match part with
  | .slice .. =>
    let right ← projectionRest self Token.star.power
    pure (.project (.indexed left part) right)
  | _ => pure (.indexed left part)

def subscript (left : Expr) : Run Expr := do
  let part ← indexOrSlice
  projectIfSlice self left part

/-- The arguments of a call, up to the closing parenthesis. -/
def arguments : Run (List Expr) := do
  match ← peek 0 with
  | some .closeParen =>
    expect .closeParen
    pure []
  | _ => self.someArguments

/-- The expression `left`, continued by the token of `slot`. -/
def extend (left : Expr) (slot : Slot) : Run Expr := do
  match slot.token with
  | some .dot =>
    match ← peek 0 with
    | some .star =>
      let _ ← advance
      let right ← projectionRest self Token.dot.power
      pure (.projectValues left right)
    | _ =>
      let right ← dotRest self Token.dot.power
      pure (.sub left right)
  | some .pipe => do
    let right ← self.expression Token.pipe.power
    pure (.pipe left right)
  | some .or => do
    let right ← self.expression Token.or.power
    pure (.or left right)
  | some .and => do
    let right ← self.expression Token.and.power
    pure (.and left right)
  | some .openParen => do
    match left with
    | .field name =>
      let args ← arguments self
      pure (.call name args)
    | _ => throw (.invalidFunctionTarget slot.start)
  | some .filter => filterRest self left
  | some .flatten => do
    let right ← projectionRest self Token.flatten.power
    pure (.project (.flatten left) right)
  | some (.compare op) => do
    -- All comparisons bind alike.
    let right ← self.expression (Token.compare .equal).power
    pure (.compare op left right)
  | some .openBracket => do
    match ← peek 0 with
    | some (.number _) => subscript self left
    | some .colon => subscript self left
    | _ =>
      expect .star
      expect .closeBracket
      let right ← projectionRest self Token.star.power
      pure (.project left right)
  | _ => throw (.unexpected slot.token slot.start)

/-- An expression that starts with the token of `slot`. -/
def operand (slot : Slot) : Run Expr := do
  match slot.token with
  | some (.literal v) => pure (.literal v)
  | some (.identifier name) => pure (.field name)
  | some (.quotedIdentifier name) =>
    match ← peek 0 with
    | some .openParen => throw (.quotedFunctionName slot.start)
    | _ => pure (.field name)
  | some .not => do
    let e ← self.expression Token.not.power
    pure (.not e)
  | some .star => do
    match ← peek 0 with
    | some .closeBracket => pure (.projectValues .identity .identity)
    | _ =>
      let right ← projectionRest self Token.star.power
      pure (.projectValues .identity right)
  | some .filter => extend self .identity slot
  | some .openBrace => do
    let pairs ← self.members
    pure (.multiHash pairs)
  | some .flatten => do
    let right ← projectionRest self Token.flatten.power
    pure (.project (.flatten .identity) right)
  | some .openBracket => do
    match ← peek 0 with
    | some (.number _) => subscript self .identity
    | some .colon => subscript self .identity
    | some .star =>
      match ← peek 1 with
      | some .closeBracket =>
        let _ ← advance
        let _ ← advance
        let right ← projectionRest self Token.star.power
        pure (.project .identity right)
      | _ =>
        let items ← self.elements
        pure (.multiList items)
    | _ =>
      let items ← self.elements
      pure (.multiList items)
  | some .current => pure .current
  | some .ampersand => do
    let e ← self.expression Token.ampersand.power
    pure (.ref e)
  | some .openParen => do
    let e ← self.expression 0
    expect .closeParen
    pure e
  | _ => throw (.unexpected slot.token slot.start)

/-- An operand and what continues it.  The levels of the continuations are given back all
    at once. -/
def chain (power : Nat) : Run Expr := do
  let slot ← advance
  let first ← operand self slot
  let base ← get
  let all ← self.climb power first
  modify fun s => s.resetTo base.depth
  pure all

/-- An expression, for which one level is in use until it ends. -/
def expression (power : Nat) : Run Expr := ExceptT.mk do
  let found ← get
  note .call
  match ← (enter limit).run with
  | .error fault =>
    note (.answer found.depth false)
    pure (.error fault)
  | .ok _ =>
    modify admitted
    note .letIn
    let outcome ← (chain self power).run
    -- The level is given back after a fault as well.
    note .lower
    modify lowered
    note (.answer found.depth outcome.isOk)
    pure outcome

/-- The expression `left`, continued by what binds tighter than `power`. -/
def climb (power : Nat) (left : Expr) : Run Expr := do
  if power < powerOf (← peek 0) then
    enter limit
    let slot ← advance
    note .extend
    let longer ← extend self left slot
    self.climb power longer
  else pure left

def someArguments : Run (List Expr) :=
  items (self.expression 0) moreArguments self.someArguments

/-- Expressions with commas between them, up to the closing bracket. -/
def elements : Run (List Expr) := items (self.expression 0) moreElements self.elements

def member : Run (String × Expr) := do
  let name ← memberName
  expect .colon
  let value ← self.expression 0
  pure (name, value)

/-- Members with commas between them, up to the closing brace. -/
def members : Run (List (String × Expr)) := items (member self) moreMembers self.members

end

/-! ## Rounds -/

/-- Each production once, with the calls that `self` makes of the others. -/
def productions (limit : Nat) (self : Parsers) : Parsers where
  expression := expression limit self
  climb := climb limit self
  someArguments := someArguments self
  elements := elements self
  members := members self

/-- A computation that is cut off. -/
def exhausted {α : Type} : Run α := fun _ => none

/-- Calls inside each other are cut off behind so many. -/
def parsers (limit : Nat) : Nat → Parsers
  | 0 => ⟨fun _ => exhausted, fun _ _ => exhausted, exhausted, exhausted, exhausted⟩
  | rounds + 1 => productions limit (parsers limit rounds)

/-- The expression that stands on a tape; every token has to be taken. -/
def parse (limit rounds : Nat) : Run Expr := do
  let e ← (parsers limit rounds).expression 0
  match ← peek 0 with
  | none => pure e
  | some _ => unexpected

end Tape

end JmesPath
