/-!
# Register numbers

The three registers with a part of their own, and `isBad`, which holds of the two that many T32
instructions may not name.
-/
namespace ShifterOperand.Register

def stackPointer : UInt32 := 13
def linkRegister : UInt32 := 14
def programCounter : UInt32 := 15

def isBad (n : UInt32) : Bool := n == stackPointer || n == programCounter

theorem isBad_iff {n : UInt32} : isBad n = true ↔ n = 13 ∨ n = 15 := by
  simp [isBad, stackPointer, programCounter]

end ShifterOperand.Register
