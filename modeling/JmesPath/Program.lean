import JmesPath.Eval.Basic
import JmesPath.Json.Reader
import JmesPath.Parser.Basic
import JmesPath.Token.Scanner

/-! # Queries

* `compile` — the expression that a query stands for
* `Program` — a query with its expression; `Program.run` evaluates it
* `Problem` — what can go wrong between a query and its answer
* `search`, `searchJson` — the answer of a query on data
-/

namespace JmesPath

/-- How deep a query may be nested unless another limit is given. -/
def defaultLimit : Nat := 256

/-- How many visits may be open at once when a program is run: more than a stack has room
    for.  A tree that keeps its references as arguments of functions never needs more of
    them than it is high. -/
def visitLimit : Nat := 1000000000

/-- The expression that a query stands for, with a limit on nesting. -/
def compile (limit : Nat) (source : List Char) : Except CompileError Expr :=
  match tokenize source with
  | .error e => .error (.lex e)
  | .ok ts =>
    match parse limit source.length ts with
    | .error e => .error (.parse e)
    | .ok e => .ok e

/-- A query that has been compiled. -/
structure Program where
  source : String
  expr : Expr

namespace Program

def ofSource (limit : Nat) (source : String) : Except CompileError Program :=
  match compile limit source.toList with
  | .error e => .error e
  | .ok e => .ok ⟨source, e⟩

def run (p : Program) (data : Value) : Outcome Value := eval visitLimit p.expr data

end Program

/-! ## Problems -/

/-- The stages in which something can go wrong. -/
inductive Problem.Kind
  | lexer
  | parser
  | runtime
  | argument
  | type
  | unknownFunction
  deriving DecidableEq

def Problem.Kind.name : Problem.Kind → String
  | .lexer => "LexerError"
  | .parser => "ParserError"
  | .runtime => "RuntimeError"
  | .argument => "ArgumentError"
  | .type => "TypeError"
  | .unknownFunction => "UnknownFunction"

def CompileError.kind : CompileError → Problem.Kind
  | .lex _ => .lexer
  | .parse _ => .parser

def EvalError.kind : EvalError → Problem.Kind
  | .zeroSliceStep => .runtime
  | .unknownFunction _ => .unknownFunction
  | .arity .. => .argument
  | .argumentType .. => .type
  | .keyType .. => .type
  | .unordered _ => .runtime

/-- What can go wrong between a query and its answer. -/
inductive Problem
  | compile (e : CompileError)
  | eval (e : EvalError)
  | endless

namespace Problem

def message : Problem → String
  | .compile e => s!"{e.kind.name}: {e.message}"
  | .eval e => s!"{e.kind.name}: {e.message}"
  | .endless => s!"more than {visitLimit} visits open at once"

end Problem

def Outcome.toExcept : Outcome Value → Except Problem Value
  | .done v => .ok v
  | .failed e => .error (.eval e)
  | .unfinished => .error .endless

def search (data : Value) (source : String) : Except Problem Value :=
  match Program.ofSource defaultLimit source with
  | .error e => .error (.compile e)
  | .ok p => (p.run data).toExcept

def searchJson (data : Json) (source : String) : Except Problem Json :=
  (search (.ofJson data) source).map Value.toJson

end JmesPath
