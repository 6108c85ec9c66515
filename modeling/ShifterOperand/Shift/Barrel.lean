import ShifterOperand.Field
import ShifterOperand.Flagged
import ShifterOperand.Shift.Operand

/-!
# The barrel shifter

One function for each kind of shift, which produces the shifted word together with its carry, and
`Shift.apply`, which examines a shift and passes a flagged word to the function of its kind. A shift
by nothing leaves word and carry as they are, whatever its kind.
-/
namespace ShifterOperand

namespace Barrel

/-- Holds the caller to an amount that the kind takes. -/
def require (k : Kind) (amount : UInt32) : Answer Unit :=
  if k.Takes amount then .ok () else .error (.breach (k.amountFault amount))

/-- Shift left. The carry is the last bit to leave at the top. -/
def lsl (value amount : UInt32) : Answer Flagged := do
  require .lsl amount
  let shifted ← Word.shiftLeft value amount
  let pos ← Word.sub 32 amount
  return ⟨shifted, ← Word.testBit value pos⟩

/-- Shift right. The carry is the last bit to leave at the bottom, and the full width leaves zero. -/
def lsr (value amount : UInt32) : Answer Flagged := do
  require .lsr amount
  let pos ← Word.sub amount 1
  let carry ← Word.testBit value pos
  if amount < 32 then
    return ⟨← Word.shiftRight value amount, carry⟩
  else
    return ⟨0, carry⟩

/-- Shift right with copies of the sign bit. The shifted word is a field of the word extended to 64
bits, so that the full width needs no case of its own. -/
def asr (value amount : UInt32) : Answer Flagged := do
  require .asr amount
  let pos ← Word.sub amount 1
  let carry ← Word.testBit value pos
  let msb ← Word.add amount 31
  return ⟨← DoubleWord.field (Word.signExtended value) msb amount, carry⟩

/-- Rotation right. The carry is the top bit of the result. -/
def ror (value amount : UInt32) : Answer Flagged := do
  require .ror amount
  let rotated := Word.rotateRight value amount
  return ⟨rotated, ← Word.testBit rotated 31⟩

/-- Rotation right by one place through the carry: the old carry enters at the top, and the lowest
bit leaves as the new one. -/
def rrx (value : UInt32) (carry : Bool) : Answer Flagged := do
  let top ← Word.shiftLeft (if carry then 1 else 0) 31
  let rest ← Word.field value 31 1
  return ⟨top ||| rest, ← Word.testBit value 0⟩

/-- The shifted word without the carry that comes with it. -/
def dropCarry (answer : Answer Flagged) : Answer UInt32 := do
  return (← answer).value

def lslWord (value amount : UInt32) : Answer UInt32 :=
  if amount = 0 then .ok value else dropCarry (lsl value amount)

def lsrWord (value amount : UInt32) : Answer UInt32 :=
  if amount = 0 then .ok value else dropCarry (lsr value amount)

def asrWord (value amount : UInt32) : Answer UInt32 :=
  if amount = 0 then .ok value else dropCarry (asr value amount)

def rorWord (value amount : UInt32) : Answer UInt32 :=
  if amount = 0 then .ok value else dropCarry (ror value amount)

def rrxWord (value : UInt32) (carry : Bool) : Answer UInt32 := dropCarry (rrx value carry)

variable {amount : UInt32} {k : Kind}

theorem require_eq_ok (h : k.Takes amount) : require k amount = .ok () := if_pos h

theorem require_eq_error (h : ¬ k.Takes amount) :
    require k amount = .error (.breach (k.amountFault amount)) := if_neg h

end Barrel

namespace Shift

/-- The function of the shift's kind, for an amount that has been examined. -/
def dispatch (s : Shift) (w : Flagged) : Answer Flagged :=
  match s.kind with
  | .lsl => Barrel.lsl w.value s.amount
  | .lsr => Barrel.lsr w.value s.amount
  | .asr => Barrel.asr w.value s.amount
  | .ror => Barrel.ror w.value s.amount
  | .rrx => Barrel.rrx w.value w.carry

/-- Applies the shift to a flagged word, and refuses an amount that its kind does not take. -/
def apply (s : Shift) (w : Flagged) : Answer Flagged :=
  if s.amount = 0 then .ok w
  else if s.kind.Takes s.amount then s.dispatch w
  else .error (.refused (s.kind.amountFault s.amount))

@[simp] theorem apply_zero (k : Kind) (w : Flagged) : (Shift.mk k 0).apply w = .ok w := rfl

theorem apply_eq_dispatch {s : Shift} (w : Flagged) (h : s.kind.Takes s.amount) :
    s.apply w = s.dispatch w := by
  have hne : s.amount ≠ 0 := by
    intro e
    have hlo : 1 ≤ s.amount.toNat := UInt32.le_iff_toNat_le.mp h.1
    rw [e] at hlo
    exact absurd hlo (by decide)
  rw [apply, if_neg hne, if_pos h]

end Shift

end ShifterOperand
