import JmesPath.Parser.Grammar

/-! # Parsing

An expression may be nested only so deep.  An expression inside another one is one
level deeper, and so is everything that continues an expression: a chain of operators
uses a level for each of them.  The number of levels left is what the parser
recurses on.

* `Parser.expression` — an expression for a number of levels
* `Parser.climb` — an expression that goes on with what binds tightly enough
* `parse` — a whole token list
-/

namespace JmesPath

namespace Parser

open Grammar

variable (limit stop : Nat)

mutual
/-- An expression; `limit` is how many levels there were in all. -/
def expression (levels power : Nat) (ts : List Located) :
    Except ParseError (Rest Located ts.length Expr) :=
  match levels with
  | 0 => .error (.nestingTooDeep limit (place stop ts))
  | n + 1 =>
    match ts with
    | [] => unexpected stop []
    | t :: rest => do
      let first ← operand stop (expression n) t rest
      -- The levels that the operand has used up are free again for the chain behind it.
      let all ← climb n power first.value first.rest
      pure (first.resumed all)
termination_by structural levels

/-- The expression `left`, continued by what binds tighter than `power`. -/
def climb (levels power : Nat) (left : Expr) (ts : List Located) :
    Except ParseError (Rest Located (ts.length + 1) Expr) :=
  match ts with
  | [] => pure (.leaving left [])
  | t :: rest =>
    if power < t.token.power then
      match levels with
      | 0 => .error (.nestingTooDeep limit t.start)
      | n + 1 => do
        let longer ← extend stop (expression n) left t rest
        let all ← climb n power longer.value longer.rest
        pure (longer.resumed all).succ
    else pure (.leaving left (t :: rest))
termination_by structural levels
end

end Parser

/-- The expression that a token list stands for; `stop` is the length of the query. -/
def parse (limit stop : Nat) (ts : List Located) : Except ParseError Expr := do
  let e ← Parser.expression limit stop limit 0 ts
  match e.rest with
  | [] => pure e.value
  | rest => Grammar.unexpected stop rest

end JmesPath
