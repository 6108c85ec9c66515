import ShifterOperand.Command.Outcome

/-!
# The program

Writes the outcome of a call and exits with its status.
-/

/-- Runs the command that the arguments ask for. -/
def main (args : List String) : IO UInt32 := do
  let outcome := ShifterOperand.Command.call args
  IO.print outcome.stdout
  IO.eprint outcome.stderr
  return outcome.exit
