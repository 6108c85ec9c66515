import ShifterOperand.Fault

/-!
# Word arithmetic

Sums, differences, products and shifts of 32-bit words that stop rather than wrap: an operation has an
answer exactly when the exact result fits the word, and a shift exactly when its count is below the
width. The rotation takes any count. `DoubleWord` holds the same for the few operations that are
needed on 64 bits.
-/
namespace ShifterOperand

namespace Word

def add (a b : UInt32) : Answer UInt32 :=
  if a.toNat + b.toNat < UInt32.size then .ok (a + b) else .error .overflow

def sub (a b : UInt32) : Answer UInt32 :=
  if b ≤ a then .ok (a - b) else .error .overflow

def mul (a b : UInt32) : Answer UInt32 :=
  if a.toNat * b.toNat < UInt32.size then .ok (a * b) else .error .overflow

/-- Bits that leave the word at the top are dropped. -/
def shiftLeft (a count : UInt32) : Answer UInt32 :=
  if count < 32 then .ok (a <<< count) else .error .overflow

def shiftRight (a count : UInt32) : Answer UInt32 :=
  if count < 32 then .ok (a >>> count) else .error .overflow

/-- The shift that fills the vacated places with copies of the sign bit. -/
def shiftRightSigned (a count : UInt32) : Answer UInt32 :=
  if count < 32 then .ok (.ofBitVec (a.toBitVec.sshiftRight count.toNat)) else .error .overflow

/-- Bits that leave at the bottom come back at the top. -/
def rotateRight (a count : UInt32) : UInt32 := .ofBitVec (a.toBitVec.rotateRight count.toNat)

/-- The word read as a signed number and written in 64 bits. -/
def signExtended (a : UInt32) : UInt64 := .ofBitVec (a.toBitVec.signExtend 64)

variable {a b count : UInt32}

theorem add_eq_ok (h : a.toNat + b.toNat < UInt32.size) : add a b = .ok (a + b) := if_pos h

theorem sub_eq_ok (h : b ≤ a) : sub a b = .ok (a - b) := if_pos h

theorem mul_eq_ok (h : a.toNat * b.toNat < UInt32.size) : mul a b = .ok (a * b) := if_pos h

theorem shiftLeft_eq_ok (h : count < 32) : shiftLeft a count = .ok (a <<< count) := if_pos h

theorem shiftRight_eq_ok (h : count < 32) : shiftRight a count = .ok (a >>> count) := if_pos h

theorem shiftRightSigned_eq_ok (h : count < 32) :
    shiftRightSigned a count = .ok (.ofBitVec (a.toBitVec.sshiftRight count.toNat)) := if_pos h

end Word

namespace DoubleWord

def sub (a b : UInt64) : Answer UInt64 :=
  if b ≤ a then .ok (a - b) else .error .overflow

def shiftLeft (a : UInt64) (count : UInt32) : Answer UInt64 :=
  if count < 64 then .ok (a <<< count.toUInt64) else .error .overflow

def shiftRight (a : UInt64) (count : UInt32) : Answer UInt64 :=
  if count < 64 then .ok (a >>> count.toUInt64) else .error .overflow

variable {a b : UInt64} {count : UInt32}

theorem sub_eq_ok (h : b ≤ a) : sub a b = .ok (a - b) := if_pos h

theorem shiftLeft_eq_ok (h : count < 64) : shiftLeft a count = .ok (a <<< count.toUInt64) := if_pos h

theorem shiftRight_eq_ok (h : count < 64) : shiftRight a count = .ok (a >>> count.toUInt64) :=
  if_pos h

end DoubleWord

end ShifterOperand
