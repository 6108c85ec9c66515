import ShifterOperand.Command.Report
import ShifterOperand.Immediate
import ShifterOperand.Register
import ShifterOperand.Shift.Barrel

/-!
# Running a command

The functions behind the command line. A command is first held to the widths of its fields, which the
functions themselves do not ask for; what they refuse is then the failure of the command.
-/
namespace ShifterOperand.Command

/-- Why a command has no report. -/
inductive Failure where
  | imm5Width (imm5 : UInt32)
  | imm12Width (imm12 : UInt32)
  | registerNumber (reg : UInt32)
  | operand (fault : Fault)
  /-- The shift cannot be applied, for the reason given. -/
  | shift (s : Shift) (fault : Fault)
  /-- A promise within the program was broken. -/
  | crash (stop : Stop)
  deriving DecidableEq, Repr

def Failure.message : Failure → String
  | imm5Width imm5 => "imm5 " ++ Text.Numeral.decimal imm5 ++ " does not fit in 5 bits"
  | imm12Width imm12 => "imm12 " ++ Text.Numeral.hex imm12 ++ " does not fit in 12 bits"
  | registerNumber reg => "register number " ++ Text.Numeral.decimal reg ++ " out of range"
  | operand fault => fault.message
  | shift s fault =>
    "cannot apply " ++ s.kind.mnemonic ++ " #" ++ Text.Numeral.decimal s.amount ++
      "\n\nCaused by:\n    " ++ fault.message
  | crash stop => stop.message

/-- The answer as the outcome of a command, with `refusal` for what is refused. -/
def ofAnswer {α : Type} (refusal : Fault → Failure) : Answer α → Except Failure α
  | .ok a => .ok a
  | .error (.refused fault) => .error (refusal fault)
  | .error stop => .error (.crash stop)

def run : Command → Except Failure Report
  | shift value kind amount carry => do
    let s : Shift := ⟨kind, amount⟩
    return .flagged (← ofAnswer (.shift s) (s.apply ⟨value, carry⟩))
  | immShift ty imm5 =>
    if imm5 < 32 then do
      return .shift (← ofAnswer .operand (Shift.ofImmediate ty imm5))
    else .error (.imm5Width imm5)
  | regShift ty => do
    return .kind (← ofAnswer .operand (Shift.ofRegister ty))
  | armImm imm12 carry =>
    if imm12 ≤ 0xFFF then do
      return .flagged (← ofAnswer .operand (Immediate.expandA32 imm12 carry))
    else .error (.imm12Width imm12)
  | thumbImm word carry => do
    return .flagged (← ofAnswer .operand (Immediate.expandT32Word word carry))
  | thumbImm12 word => do
    return .word (← ofAnswer .operand (Immediate.gatherT32 word))
  | thumbImmScaled word => do
    return .word (← ofAnswer .operand (Immediate.scaledOffset word))
  | badReg reg =>
    if reg < 16 then .ok (.restricted (Register.isBad reg)) else .error (.registerNumber reg)

end ShifterOperand.Command
