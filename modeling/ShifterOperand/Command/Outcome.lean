import ShifterOperand.Command.Arguments
import ShifterOperand.Command.Run

/-!
# Outcome of a call

The whole command line as a function: from the arguments to the exit status and the two texts that are
written. The status is 0 for a report, 1 for a command that fails and 2 for arguments that ask for no
command.

Two texts are cut short. Of the error on a misuse only the first line is kept (`Misuse.line`), without
the break behind it; the usage that would follow is left out. A request for help is answered with the
summary of the program alone, also where it is made for a command that has a description of its own.
-/
namespace ShifterOperand.Command

structure Outcome where
  exit : UInt32
  stdout : String
  stderr : String
  deriving DecidableEq, Repr

def version : String := "0.1.0"

/-- What a call writes when it runs no command: the first line of the error on a misuse, the summary of
the program for any request for help, and the version. -/
def Ending.outcome : Ending → Outcome
  | misuse m => ⟨2, "", m.line⟩
  | help => ⟨0, summary ++ "\n", ""⟩
  | version => ⟨0, programName ++ " " ++ Command.version ++ "\n", ""⟩

def Failure.outcome : Failure → Outcome
  | crash stop => ⟨101, "", stop.message ++ "\n"⟩
  | failure => ⟨1, "", "Error: " ++ failure.message ++ "\n"⟩

/-- What running the command comes to. -/
def outcome (format : Format) (command : Command) : Outcome :=
  match command.run with
  | .ok report => ⟨0, report.render format ++ "\n", ""⟩
  | .error failure => failure.outcome

/-- What a call with these arguments comes to. The environment is taken to set no directive for a log, so
that the events which a run would record are off and write nothing. -/
def call (args : List String) : Outcome :=
  match read args with
  | .ok (format, command) => outcome format command
  | .error ending => ending.outcome

end ShifterOperand.Command
