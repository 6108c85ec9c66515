import ShifterOperand.Shift.Barrel

/-!
# Entry points for valid operands

A caller that decodes valid instructions knows that its fields are in range. These entry points take
it at its word: where the examining functions refuse, these report a breach.
-/
namespace ShifterOperand.Contract

def decodeImmediate (code imm5 : UInt32) : Answer Shift := (Shift.ofImmediate code imm5).demand

/-- The amount alone, for a caller that knows the kind. -/
def decodeAmount (code imm5 : UInt32) : Answer UInt32 := do
  return (← decodeImmediate code imm5).amount

def decodeRegister (code : UInt32) : Answer Kind := (Shift.ofRegister code).demand

def apply (s : Shift) (w : Flagged) : Answer Flagged := (s.apply w).demand

/-- The shifted word without its carry. -/
def applyWord (s : Shift) (w : Flagged) : Answer UInt32 := do
  return (← apply s w).value

end ShifterOperand.Contract
