import ShifterOperand.Field
import ShifterOperand.Flagged

/-!
# Immediate operands

Constants that an instruction carries in a few bits of its own word. A modified immediate holds one
byte and says where in the word it goes; the A32 and the T32 instructions encode that in two ways. The
incoming carry never changes the constant. It comes out again where the encoding applies no rotation,
and otherwise the carry is the top bit of the constant. Bits outside the fields are ignored, so that
a whole instruction word may be given.
-/
namespace ShifterOperand.Immediate

/-- The A32 constant: the low byte rotated right by twice the field in bits 11 to 8. -/
def expandA32 (word : UInt32) (carry : Bool) : Answer Flagged := do
  let byte ← Word.field word 7 0
  let places ← Word.mul 2 (← Word.field word 11 8)
  if places = 0 then
    return ⟨byte, carry⟩
  else
    let constant := Word.rotateRight byte places
    return ⟨constant, ← Word.testBit constant 31⟩

/-- The byte repeated over the word in one of four patterns, which the low two bits of `pattern`
select. -/
def replicate (byte pattern : UInt32) : Answer UInt32 :=
  if pattern = 0 then .ok byte
  else if pattern = 1 then do
    return (← Word.shiftLeft byte 16) ||| byte
  else if pattern = 2 then do
    return (← Word.shiftLeft byte 24) ||| (← Word.shiftLeft byte 8)
  else do
    return (← Word.shiftLeft byte 24) ||| (← Word.shiftLeft byte 16) |||
      (← Word.shiftLeft byte 8) ||| byte

/-- The T32 constant of a gathered 12-bit immediate. With bits 11 and 10 clear the byte is repeated as
bits 9 and 8 say. Otherwise its top bit gives way to a set bit, and it is rotated right by the field
in bits 11 to 7, which is then at least 8. -/
def expandT32 (imm12 : UInt32) (carry : Bool) : Answer Flagged := do
  let byte ← Word.field imm12 7 0
  if (← Word.field imm12 11 10) = 0 then
    return ⟨← replicate byte (← Word.field imm12 9 8), carry⟩
  else
    let unrotated := 0x80 ||| (← Word.field imm12 6 0)
    let constant := Word.rotateRight unrotated (← Word.field imm12 11 7)
    return ⟨constant, ← Word.testBit constant 31⟩

/-- The 12-bit immediate of a T32 instruction word, gathered from bit 26, bits 14 to 12 and bits 7
to 0. -/
def gatherT32 (word : UInt32) : Answer UInt32 := do
  let i ← Word.bit word 26
  let imm3 ← Word.field word 14 12
  let imm8 ← Word.field word 7 0
  return (← Word.shiftLeft i 11) ||| (← Word.shiftLeft imm3 8) ||| imm8

/-- The T32 constant of an instruction word. -/
def expandT32Word (word : UInt32) (carry : Bool) : Answer Flagged := do
  expandT32 (← gatherT32 word) carry

/-- The offset in the low seven bits of a T32 instruction word, counted in units of four bytes. -/
def scaledOffset (word : UInt32) : Answer UInt32 := do
  Word.mul (← Word.field word 6 0) 4

/-- The A32 constant without its carry. -/
def constantA32 (word : UInt32) : Answer UInt32 := do
  return (← expandA32 word false).value

/-- The T32 constant of an instruction word without its carry. -/
def constantT32Word (word : UInt32) : Answer UInt32 := do
  return (← expandT32Word word false).value

end ShifterOperand.Immediate
