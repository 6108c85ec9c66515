import ShifterOperand.Shift.Kind
import ShifterOperand.Text.Numeral

/-!
# Operand faults

A `Fault` is a combination of operand fields that no valid encoding produces. What becomes of it is
for the entry point to say: it is handed back to a caller who asked with doubtful fields, or it stops
a caller who had promised valid ones. `Stop` tells the two apart, and it has a third case for
arithmetic that leaves the word.
-/
namespace ShifterOperand

open Text.Numeral (decimal hex)

inductive Fault where
  /-- The code of a shift type has more than two bits. -/
  | shiftType (code : UInt32)
  /-- The bounds of a bit field are out of order, or the field does not fit its word. -/
  | bitRange (msb lsb : UInt32)
  /-- A rotation with extend by another amount than one. -/
  | rrxAmount (amount : UInt32)
  /-- A shift by an amount that its kind does not take. -/
  | amountRange (kind : Kind) (amount : UInt32)
  /-- The extension of a number that has no bits, or more bits than a word. -/
  | extensionWidth (width : UInt32)
  deriving DecidableEq, Repr

def Fault.message : Fault → String
  | .shiftType code => "invalid shift type " ++ hex code ++ " (expected 0..=3)"
  | .bitRange msb lsb => "invalid bit range [" ++ decimal msb ++ ":" ++ decimal lsb ++ "]"
  | .rrxAmount amount => "rrx requires a shift amount of 1, got " ++ decimal amount
  | .amountRange kind amount =>
    "shift amount " ++ decimal amount ++ " out of range for " ++ kind.mnemonic
  | .extensionWidth width => "invalid sign-extension width " ++ decimal width

/-- The fault of a shift of this kind by an amount that it does not take. -/
def Kind.amountFault (k : Kind) (amount : UInt32) : Fault :=
  if k = .rrx then .rrxAmount amount else .amountRange k amount

/-- Why a computation ends without an answer. -/
inductive Stop where
  /-- The operands were examined for the caller, who is told what is wrong with them. -/
  | refused (fault : Fault)
  /-- The caller had promised valid operands and broke the promise. -/
  | breach (fault : Fault)
  /-- A step of word arithmetic left the word. -/
  | overflow
  deriving DecidableEq, Repr

def Stop.message : Stop → String
  | .refused fault => fault.message
  | .breach fault => fault.message
  | .overflow => "word arithmetic overflow"

abbrev Answer := Except Stop

/-- Holds the caller to the operands: what would be refused is a breach. -/
def Answer.demand {α : Type} : Answer α → Answer α
  | .error (.refused fault) => .error (.breach fault)
  | answer => answer

namespace Answer

variable {α : Type}

@[simp] theorem demand_ok (a : α) : demand (.ok a) = .ok a := rfl

@[simp] theorem demand_refused (f : Fault) :
    demand (.error (.refused f) : Answer α) = .error (.breach f) := rfl

@[simp] theorem demand_breach (f : Fault) :
    demand (.error (.breach f) : Answer α) = .error (.breach f) := rfl

@[simp] theorem demand_overflow :
    demand (.error .overflow : Answer α) = .error .overflow := rfl

end Answer

end ShifterOperand
