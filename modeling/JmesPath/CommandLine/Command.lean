import JmesPath.CommandLine.Options
import JmesPath.Program

/-! # Commands

* `Command` — what the program can be asked to do
* `Command.ofArguments` — the command that a list of arguments stands for
-/

namespace JmesPath.CommandLine

/-- What the program can be asked to do. -/
inductive Command
  | search (expression : String) (input : Option String) (pretty syntaxOnly : Bool)
      (maxDepth : Nat)
  | tokenize (expression : String)
  | ast (expression : String) (maxDepth : Nat)
  | functions (name : Option String)
  deriving DecidableEq

/-- A number of levels: digits, with a plus in front or not, below `2 ^ 64`. -/
def readDepth? (s : String) : Option Nat :=
  let digits := match s.toList with
    | '+' :: cs => cs
    | cs => cs
  if digits.isEmpty || !digits.all Char.isDigit then none
  else
    let n := Nat.ofDigitChars 10 digits 0
    if n < UInt64.size then some n else none

/-- The option that asks for a log; every command has it. -/
def verbose : OptionSpec := ⟨some 'v', "verbose", false⟩

def maxDepth : OptionSpec := ⟨none, "max-depth", true⟩

def searchOptions : List OptionSpec :=
  [verbose, ⟨some 'i', "input", true⟩, ⟨some 'p', "pretty", false⟩,
    ⟨none, "syntax-only", false⟩, maxDepth]

/-- Whether arguments are all right so far: not too many positional ones, and a limit
    that is a number. -/
def acceptable (positionals : Nat) (a : Arguments) : Bool :=
  a.positionals.length ≤ positionals &&
    ((a.value? "max-depth").all fun s => (readDepth? s).isSome)

def depthOf (a : Arguments) : Nat :=
  ((a.value? "max-depth").bind readDepth?).getD defaultLimit

namespace Command

/-- Reads the arguments of a command that asks for at most one positional argument. -/
def readArguments (specs : List OptionSpec) (args : List String) : Except Refusal Arguments :=
  Arguments.read specs (acceptable 1) .empty args

/-- Reads the arguments of a command that needs one positional argument. -/
def withExpression (specs : List OptionSpec) (args : List String)
    (build : String → Arguments → Command) : Except Refusal Command := do
  let a ← readArguments specs args
  match a.positionals with
  | [expression] => .ok (build expression a)
  | _ => .error .usage

def names : List String := ["search", "tokenize", "ast", "functions", "help"]

def named (name : String) (args : List String) : Except Refusal Command :=
  if name == "search" then
    withExpression searchOptions args fun expression a =>
      .search expression (a.value? "input") (a.has "pretty") (a.has "syntax-only") (depthOf a)
  else if name == "tokenize" then
    withExpression [verbose] args fun expression _ => .tokenize expression
  else if name == "ast" then
    withExpression [verbose, maxDepth] args fun expression a => .ast expression (depthOf a)
  else if name == "functions" then do
    let a ← readArguments [verbose] args
    .ok (.functions a.positionals.head?)
  else if name == "help" then
    match args with
    | [] => .error .help
    | [topic] => .error (if names.contains topic then .help else .usage)
    | _ => .error .usage
  else .error .usage

/-- The command that arguments stand for.  Options may stand in front of its name. -/
def ofArgumentsFrom (a : Arguments) : List String → Except Refusal Command
  | [] => .error .usage
  | s :: rest =>
    if s == "--" then .error .usage
    else if looksLikeOption s then
      match readOption [verbose] true a s with
      | .error r => .error r
      | .ok (.nothing a) => ofArgumentsFrom a rest
      | .ok (.value ..) => .error .usage
    else named s rest

def ofArguments (args : List String) : Except Refusal Command := ofArgumentsFrom .empty args

end Command

end JmesPath.CommandLine
