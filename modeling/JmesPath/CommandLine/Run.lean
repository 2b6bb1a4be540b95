import JmesPath.CommandLine.Command
import JmesPath.Expr.Outline
import JmesPath.Function.Reference

/-! # Running commands

* `CommandError` — why a command has no result
* `executeSearch`, `tokenList`, `outline`, `describe` — the commands
* `Report` — what a run leaves behind: an exit code and the text written
* `run` — arguments and standard input to a report
-/

namespace JmesPath.CommandLine

/-- Why a command has no result. -/
inductive CommandError
  | query (p : Problem)
  | json (e : Json.Error)
  | noInput
  | unknownFunction (name : String)

def CommandError.message : CommandError → String
  | .query p => p.message
  | .json e => s!"invalid JSON input: {e.message}"
  | .noInput => "no input provided. Use --input or pipe JSON to stdin."
  | .unknownFunction name =>
    s!"unknown function: '{name}'\nRun 'jmesq functions' to see available functions."

/-- The exit code of a command that has no result; that of an abort if the program is
    stopped. -/
def CommandError.exitCode : CommandError → Nat
  | .query (.eval (.unordered _)) => 134
  | _ => 1

/-- The answer of a search, or no more than that the query can be compiled. -/
inductive SearchResult
  | syntaxValid
  | answer (v : Value)

def readData (text : String) : Except CommandError Value :=
  match Json.ofString text with
  | .ok j => .ok (.ofJson j)
  | .error e => .error (.json e)

def compileQuery (limit : Nat) (expression : String) : Except CommandError Program :=
  match Program.ofSource limit expression with
  | .ok p => .ok p
  | .error e => .error (.query (.compile e))

/-- Compiles a query and, unless only its form is asked for, runs it on the input. -/
def executeSearch (expression : String) (input : Option String) (syntaxOnly : Bool)
    (limit : Nat) : Except CommandError SearchResult := do
  let p ← compileQuery limit expression
  if syntaxOnly then .ok .syntaxValid
  else
    match input with
    | none => .error .noInput
    | some text =>
      let data ← readData text
      match (p.run data).toExcept with
      | .ok v => .ok (.answer v)
      | .error e => .error (.query e)

def tokenList (expression : String) : Except CommandError String :=
  match tokenize expression.toList with
  | .ok ts => .ok (String.join (ts.map fun t => t.text ++ "\n"))
  | .error e => .error (.query (.compile (.lex e)))

def outline (expression : String) (limit : Nat) : Except CommandError String := do
  let p ← compileQuery limit expression
  .ok (String.ofList p.expr.render)

def describe (name : String) : Except CommandError String :=
  match describeFunction? name with
  | some text => .ok text
  | none => .error (.unknownFunction name)

/-- The output of a command; `stdin` is the input of a search that names none. -/
def Command.execute (stdin : String) : Command → Except CommandError String
  | .search expression input pretty syntaxOnly limit => do
    match ← executeSearch expression (some (input.getD stdin)) syntaxOnly limit with
    | .syntaxValid => .ok "Syntax is valid\n"
    | .answer v => .ok ((if pretty then v.pretty else v.compact) ++ "\n")
  | .tokenize expression => tokenList expression
  | .ast expression limit => outline expression limit
  | .functions none => .ok functionList
  | .functions (some name) => describe name

def Command.readsInput : Command → Bool
  | .search _ none _ false _ => true
  | _ => false

/-- What a run leaves behind. -/
structure Report where
  exitCode : Nat
  stdout : String
  stderr : String
  deriving DecidableEq

def usageText : String :=
  "Usage: jmesq [OPTIONS] <COMMAND>\n\n" ++
    "Commands:\n" ++
    "  search     Evaluate an expression against JSON input\n" ++
    "  tokenize   Print the tokens of an expression\n" ++
    "  ast        Print the syntax tree of an expression\n" ++
    "  functions  List builtin functions, or describe one\n" ++
    "  help       Print this message\n"

/-- What the program says when it does not obey. -/
def Refusal.report : Refusal → Report
  | .help => ⟨0, usageText, ""⟩
  | .version => ⟨0, "jmesq 0.1.0\n", ""⟩
  | .usage => ⟨2, "", usageText⟩

def Command.report (stdin : String) (c : Command) : Report :=
  match c.execute stdin with
  | .ok text => ⟨0, text, ""⟩
  | .error e => ⟨e.exitCode, "", e.message ++ "\n"⟩

def run (args : List String) (stdin : String) : Report :=
  match Command.ofArguments args with
  | .ok c => c.report stdin
  | .error r => r.report

end JmesPath.CommandLine
