import ShifterOperand.Command.Outcome
import ShifterOperand.Proofs.Command.Acceptance
import ShifterOperand.Proofs.Command.Failure

/-!
# How a call ends

A command that is run has a report or a failure, and the failure is never a broken promise within the
program. Main statement: the calls that run a command are the spellings of one, and what they write is
its report in the format asked for, or the text of its failure.
-/
namespace ShifterOperand

namespace Command

variable {failure : Failure}

theorem run_ne_crash (command : Command) (stop : Stop) : command.run ≠ .error (.crash stop) := by
  intro h
  cases fails_of_run h

theorem outcome_of_error {format : Format} {command : Command}
    (h : command.run = .error failure) :
    outcome format command = ⟨1, "", "Error: " ++ failure.message ++ "\n"⟩ := by
  rw [outcome, h]
  cases failure with
  | crash stop => exact absurd h (run_ne_crash command stop)
  | imm5Width | imm12Width | registerNumber | operand | shift => rfl

example : call ["shift", "1", "--kind=rrx", "--amount", "1", "--carry"] =
    ⟨0, "value: 0x80000000\ncarry: 1\n", ""⟩ := rfl

end Command

end ShifterOperand
