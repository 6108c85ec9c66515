/-!
# Words with a carry flag

What the shifter takes and what it produces: a word together with the carry flag. The carry is a part
of the result, since each kind of shift takes it from another bit.
-/
namespace ShifterOperand

@[ext] structure Flagged where
  value : UInt32
  carry : Bool
  deriving DecidableEq, Repr

end ShifterOperand
