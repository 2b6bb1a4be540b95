import JmesPath.Function.Builtins

/-! # The function reference

* `functionList` — every function with its signature and summary
* `describeFunction?` — one function
-/

namespace JmesPath

def padRight (width : Nat) (s : String) : String :=
  s ++ String.ofList (List.replicate (width - s.length) ' ')

/-- Every function with its signature and summary, one a line, the summaries below each
    other. -/
def functionList : String :=
  let width := (builtins.map fun f => f.signature.length).foldl Nat.max 0
  let lines := builtins.map fun f => s!"  {padRight width f.signature}  {f.summary}\n"
  "BUILTIN FUNCTIONS\n\n" ++ String.join lines

def describeFunction? (name : String) : Option String :=
  (Function.find? name).map fun f => s!"{f.signature}\n\n  {f.summary}\n"

end JmesPath
