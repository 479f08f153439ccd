import OperatorGrammar.Command.Execution

/-! # The program

Reads the command line and, if it asks for one, a file, and prints the report. -/

namespace OperatorGrammar

/-- The content of a file, if it can be read as text. -/
def readFile? (path : String) : IO (Option String) := do
  try
    return some (← IO.FS.readFile path)
  catch _ =>
    return none

end OperatorGrammar

open OperatorGrammar in
/-- Evaluates the expression on the command line. -/
def main (arguments : List String) : IO UInt32 := do
  let report ←
    match Command.Options.ofWords? arguments with
    | none => pure Command.usage
    | some options =>
      let content ← if options.fromFile then readFile? options.source else pure none
      pure (Command.execute options content)
  IO.print report.output
  IO.eprint report.errors
  return report.code
