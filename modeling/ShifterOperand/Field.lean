import ShifterOperand.Word

/-!
# Bit fields

A field is named by its highest and its lowest position, both counted from bit 0 and both included,
and its value is right-aligned. Bounds out of order and positions past the top of the word are a
breach. `DoubleWord.field` takes a field of at most 32 bits from a 64-bit word, and `Word.signExtend`
reads the low bits of a word as a signed number.
-/
namespace ShifterOperand

namespace Word

/-- The word whose low `width` bits are set, for a width from 0 to 32. -/
def lowMask (width : UInt32) : Answer UInt32 :=
  if width = 32 then .ok 0xFFFFFFFF
  else do
    let top ← shiftLeft 1 width
    sub top 1

def field (value msb lsb : UInt32) : Answer UInt32 :=
  if 32 ≤ msb ∨ msb < lsb then .error (.breach (.bitRange msb lsb))
  else do
    let span ← sub msb lsb
    let width ← add span 1
    let mask ← lowMask width
    let aligned ← shiftRight value lsb
    return aligned &&& mask

/-- The bit at a position, as a word. -/
def bit (value pos : UInt32) : Answer UInt32 := field value pos pos

/-- Whether the bit at a position is set. -/
def testBit (value pos : UInt32) : Answer Bool := do
  return (← bit value pos) = 1

/-- The low `width` bits of the word, read as a signed number. -/
def signExtend (value width : UInt32) : Answer UInt32 :=
  if 1 ≤ width ∧ width ≤ 32 then do
    let places ← sub 32 width
    let top ← shiftLeft value places
    shiftRightSigned top places
  else .error (.breach (.extensionWidth width))

variable {value msb lsb width : UInt32}

theorem field_eq_error (h : 32 ≤ msb ∨ msb < lsb) :
    field value msb lsb = .error (.breach (.bitRange msb lsb)) := if_pos h

theorem signExtend_eq_error (h : ¬ (1 ≤ width ∧ width ≤ 32)) :
    signExtend value width = .error (.breach (.extensionWidth width)) := if_neg h

end Word

namespace DoubleWord

/-- The double word whose low `width` bits are set, for a width from 0 to 63. A full word has a case of
its own here too, though a shift by its width stays within the double word. -/
def lowMask (width : UInt32) : Answer UInt64 :=
  if width = 32 then .ok 0xFFFFFFFF
  else do
    let top ← shiftLeft 1 width
    sub top 1

def field (value : UInt64) (msb lsb : UInt32) : Answer UInt32 :=
  if 64 ≤ msb ∨ msb < lsb then .error (.breach (.bitRange msb lsb))
  else do
    let span ← Word.sub msb lsb
    if 32 ≤ span then .error (.breach (.bitRange msb lsb))
    else do
      let width ← Word.add span 1
      let mask ← lowMask width
      let aligned ← shiftRight value lsb
      return (aligned &&& mask).toUInt32

end DoubleWord

end ShifterOperand
