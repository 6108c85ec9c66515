import ShifterOperand.Command.Grammar
import ShifterOperand.Text.Display
import ShifterOperand.Text.Numeral

/-!
# Misuse of the command line

Why a list of arguments asks for no command, and the line that says so. An argument is quoted in it as
a display shows it, and the line is cut at the first line break, which the argument may hold.
-/
namespace ShifterOperand.Command

def programName : String := "arm-operand"

def summary : String := "Decode ARM/Thumb shifter and immediate operands"

inductive Misuse where
  /-- There is no command and nothing else. -/
  | nothingGiven
  /-- There is no command, only settings. -/
  | noCommand
  | unknownCommand (word : String)
  | missingArguments
  | unexpected (argument : String)
  /-- A value is attached to a switch. -/
  | unneededValue (switch : Switch) (text : String)
  | missingValue (setting : Setting)
  | repeatedSetting (setting : Setting)
  | repeatedSwitch (switch : Switch)
  | badOperand (operand : Operand) (text : String) (fault : Text.Numeral.Fault)
  | badAmount (text : String) (fault : Text.Numeral.Fault)
  /-- The value is none of the names that the setting takes. -/
  | badChoice (setting : Setting) (text : String)
  deriving DecidableEq, Repr

/-- A text between quotation marks, as messages show it. -/
def quoted (s : String) : String := "'" ++ s ++ "'"

/-- An argument as messages quote it. -/
def echoed (s : String) : String := quoted (Text.displayed s)

def Misuse.message : Misuse → String
  | nothingGiven => summary
  | noCommand =>
    "error: " ++ quoted programName ++ " requires a subcommand but one was not provided"
  | unknownCommand word => "error: unrecognized subcommand " ++ echoed word
  | missingArguments => "error: the following required arguments were not provided:"
  | unexpected argument => "error: unexpected argument " ++ echoed argument ++ " found"
  | unneededValue switch text =>
    "error: unexpected value " ++ echoed text ++ " for " ++ quoted switch.label ++
      " found; no more were expected"
  | missingValue setting =>
    "error: a value is required for " ++ quoted setting.label ++ " but none was supplied"
  | repeatedSetting setting =>
    "error: the argument " ++ quoted setting.label ++ " cannot be used multiple times"
  | repeatedSwitch switch =>
    "error: the argument " ++ quoted switch.label ++ " cannot be used multiple times"
  | badOperand operand text fault =>
    "error: invalid value " ++ echoed text ++ " for " ++ quoted operand.label ++ ": " ++ fault.message
  | badAmount text fault =>
    "error: invalid value " ++ echoed text ++ " for " ++ quoted Setting.amount.label ++ ": " ++
      fault.message
  | badChoice setting text =>
    "error: invalid value " ++ echoed text ++ " for " ++ quoted setting.label

/-- What stands before the first line break, which is a line feed with or without a carriage return. -/
def firstLine (s : String) : String :=
  let line := s.toList.takeWhile (· ≠ '\n')
  String.ofList (if '\n' ∈ s.toList ∧ line.getLast? = some '\r' then line.dropLast else line)

def Misuse.line (m : Misuse) : String := firstLine m.message

end ShifterOperand.Command
