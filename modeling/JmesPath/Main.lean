import JmesPath.CommandLine.Run

/-! # The program

Reads the arguments and, if the command asks for it, standard input; writes the report.
-/

open JmesPath.CommandLine

def main (args : List String) : IO UInt32 := do
  let report ← match Command.ofArguments args with
    | .error r => pure r.report
    | .ok c => do
      let stdin ← if c.readsInput then (← IO.getStdin).readToEnd else pure ""
      pure (c.report stdin)
  IO.print report.stdout
  IO.eprint report.stderr
  return report.exitCode.toUInt32
