import Mathlib.Algebra.Group.Nat.Even
import Mathlib.Data.Set.Basic
import ShifterOperand.Proofs.Immediate.Expansion
import ShifterOperand.Proofs.Shift.Exact

/-!
# A32 constants and their encodings

Which constants an A32 immediate can hold, and how many ways there are to encode one of them. A byte
is rotated to the right to expand it, so that the way back is a rotation to the left, and a constant
has an encoding for each of the sixteen even rotations that bring it into its low byte. Main
statement: these are all its encodings, and they differ in the carry only where one of them does not
rotate.
-/
namespace ShifterOperand

namespace Word

/-- Bits that leave at the top come back at the bottom. -/
def rotateLeft (a : UInt32) (count : ℕ) : UInt32 := .ofBitVec (a.toBitVec.rotateLeft count)

theorem rotateLeft_mod (a : UInt32) (count : ℕ) : rotateLeft a (count % 32) = rotateLeft a count :=
  congrArg UInt32.ofBitVec BitVec.rotateLeft_mod_eq_rotateLeft

theorem rotateRight_zero (a : UInt32) : rotateRight a 0 = a := by
  apply UInt32.toNat_inj.mp
  rw [toNat_rotateRight a (by decide), UInt32.toNat_zero, rotated, Nat.pow_zero, Nat.mod_one,
    Nat.zero_mul, Nat.zero_add, Nat.div_one]

variable {value constant count : UInt32}

theorem rotateLeft_rotateRight (h : count.toNat ≤ 31) :
    rotateLeft (rotateRight value count) count.toNat = value := by
  apply UInt32.toBitVec_inj.mp
  apply BitVec.eq_of_getLsbD_eq
  intro i hi
  change ((value.toBitVec.rotateRight count.toNat).rotateLeft count.toNat).getLsbD i = _
  rw [BitVec.getLsbD_rotateLeft, Nat.mod_eq_of_lt (Nat.lt_succ_of_le h)]
  by_cases hlow : i < count.toNat
  · rw [decide_eq_true hlow, cond_true, BitVec.getLsbD_rotateRight_of_lt (by omega),
      decide_eq_false (by omega), cond_false, decide_eq_true (by omega), Bool.true_and]
    congr 1
    omega
  · rw [decide_eq_false hlow, cond_false, decide_eq_true hi, Bool.true_and,
      BitVec.getLsbD_rotateRight_of_lt (by omega), decide_eq_true (by omega), cond_true]
    congr 1
    omega

theorem rotateRight_rotateLeft (h : count.toNat ≤ 31) :
    rotateRight (rotateLeft constant count.toNat) count = constant := by
  apply UInt32.toBitVec_inj.mp
  apply BitVec.eq_of_getLsbD_eq
  intro i hi
  change ((constant.toBitVec.rotateLeft count.toNat).rotateRight count.toNat).getLsbD i = _
  rw [BitVec.getLsbD_rotateRight_of_lt (by omega), BitVec.getLsbD_rotateLeft,
    BitVec.getLsbD_rotateLeft, Nat.mod_eq_of_lt (Nat.lt_succ_of_le h)]
  by_cases hlow : i < 32 - count.toNat
  · rw [decide_eq_true hlow, cond_true, decide_eq_false (by omega), cond_false,
      decide_eq_true (by omega), Bool.true_and]
    congr 1
    omega
  · rw [decide_eq_false hlow, cond_false, decide_eq_true hi, Bool.true_and,
      decide_eq_true (by omega), cond_true]
    congr 1
    omega

theorem rotateRight_eq_iff (h : count.toNat ≤ 31) :
    rotateRight value count = constant ↔ value = rotateLeft constant count.toNat := by
  constructor
  · rintro rfl
    exact (rotateLeft_rotateRight h).symm
  · rintro rfl
    exact rotateRight_rotateLeft h

end Word

namespace Immediate

open Word (slice rotateLeft rotateRight)

/-- The immediates of twelve bits that expand to the constant. -/
def encodingsA32 (constant : UInt32) : Set UInt32 :=
  {imm12 | imm12 ≤ 0xFFF ∧ constantA32 imm12 = .ok constant}

variable {imm12 constant : UInt32}

/-- Without the carry, a rotation by nothing is no case of its own. -/
theorem constantA32_eq_ok (imm12 : UInt32) :
    constantA32 imm12 = .ok (rotateRight (slice imm12 0 8) (2 * slice imm12 8 4)) := by
  rw [constantA32, expandA32_eq_ok]
  by_cases h : slice imm12 8 4 = 0
  · rw [if_pos h, h]
    exact congrArg Except.ok (Word.rotateRight_zero _).symm
  · rw [if_neg h]
    rfl

theorem constantA32_eq_ok_iff :
    constantA32 imm12 = .ok constant ↔
      slice imm12 0 8 = rotateLeft constant (2 * (slice imm12 8 4).toNat) := by
  rw [constantA32_eq_ok, Except.ok.injEq, Word.rotateRight_eq_iff (toNat_two_mul_slice_le imm12),
    toNat_two_mul_slice]

theorem toNat_eq_of_le (h : imm12 ≤ 0xFFF) :
    imm12.toNat = 256 * (slice imm12 8 4).toNat + (slice imm12 0 8).toNat := by
  have hle : imm12.toNat ≤ 4095 := UInt32.le_iff_toNat_le.mp h
  rw [Word.toNat_slice _ (by decide), Word.toNat_slice _ (by decide)]
  omega

/-- The encodings of a constant are its rotations to the left that are bytes, with half the amount. -/
theorem mem_encodingsA32_iff :
    imm12 ∈ encodingsA32 constant ↔
      ∃ r < 16, (rotateLeft constant (2 * r)).toNat < 256 ∧
        imm12.toNat = 256 * r + (rotateLeft constant (2 * r)).toNat := by
  change imm12 ≤ 0xFFF ∧ constantA32 imm12 = .ok constant ↔ _
  rw [constantA32_eq_ok_iff]
  constructor
  · rintro ⟨hle, h⟩
    refine ⟨(slice imm12 8 4).toNat, Word.toNat_slice_lt imm12 8 (by decide), ?_, ?_⟩
    · rw [← h]
      exact Word.toNat_slice_lt imm12 0 (by decide)
    · rw [← h]
      exact toNat_eq_of_le hle
  · rintro ⟨r, hr, hbyte, hnum⟩
    have hrotate : (slice imm12 8 4).toNat = r := by
      rw [Word.toNat_slice _ (by decide)]
      omega
    refine ⟨UInt32.le_iff_toNat_le.mpr (by simp; omega), UInt32.toNat_inj.mp ?_⟩
    rw [hrotate, Word.toNat_slice _ (by decide)]
    omega

theorem exists_mem_encodingsA32_iff :
    (∃ imm12, imm12 ∈ encodingsA32 constant) ↔
      ∃ n, Even n ∧ (rotateLeft constant n).toNat < 256 := by
  constructor
  · rintro ⟨imm12, h⟩
    obtain ⟨r, -, hbyte, -⟩ := mem_encodingsA32_iff.mp h
    exact ⟨2 * r, even_two_mul r, hbyte⟩
  · rintro ⟨n, ⟨m, rfl⟩, hbyte⟩
    have hr : 2 * (m % 16) = (m + m) % 32 := by omega
    rw [← Word.rotateLeft_mod, ← hr] at hbyte
    have hlt : 256 * (m % 16) + (rotateLeft constant (2 * (m % 16))).toNat < UInt32.size := by
      simp only [UInt32.size]
      omega
    exact ⟨_, mem_encodingsA32_iff.mpr
      ⟨m % 16, Nat.mod_lt m (by decide), hbyte, UInt32.toNat_ofNat_of_lt' hlt⟩⟩

/-- An encoding that rotates has the top bit of the constant for its carry, and one that does not has
the carry that came in. -/
theorem expandA32_of_mem (h : imm12 ∈ encodingsA32 constant) (carry : Bool) :
    expandA32 imm12 carry =
      .ok ⟨constant, if slice imm12 8 4 = 0 then carry else constant.toNat.testBit 31⟩ := by
  have hconstant := h.2
  rw [constantA32_eq_ok, Except.ok.injEq] at hconstant
  rw [expandA32_eq_ok, hconstant]
  by_cases hz : slice imm12 8 4 = 0
  · rw [hz] at hconstant
    rw [if_pos hz, if_pos hz, ← hconstant]
    exact congrArg (fun a => Except.ok (Flagged.mk a carry)) (Word.rotateRight_zero _).symm
  · rw [if_neg hz, if_neg hz]

/-- The encoding that does not rotate is the constant itself. -/
theorem eq_of_mem_of_slice_eq_zero (h : imm12 ∈ encodingsA32 constant)
    (hz : slice imm12 8 4 = 0) : imm12 = constant := by
  have hconstant := h.2
  rw [constantA32_eq_ok, hz, Except.ok.injEq] at hconstant
  have hbyte : slice imm12 0 8 = constant := (Word.rotateRight_zero _).symm.trans hconstant
  have hnum := toNat_eq_of_le h.1
  rw [hz, UInt32.toNat_zero, Nat.mul_zero, Nat.zero_add] at hnum
  exact (UInt32.toNat_inj.mp hnum).trans hbyte

/-- An immediate expands to a constant when its byte is the constant rotated to the left by twice the
rotate field. A constant can be encoded when some even rotation brings it into its low byte, and its
encodings are these rotations. Two encodings that rotate have the same carry, the top bit of the
constant. At most one does not rotate, and it passes on the carry that comes in. -/
theorem encodingsA32_eq_rotations (constant : UInt32) :
    (∀ imm12, constantA32 imm12 = .ok constant ↔
      slice imm12 0 8 = rotateLeft constant (2 * (slice imm12 8 4).toNat)) ∧
    ((∃ imm12, imm12 ∈ encodingsA32 constant) ↔
      ∃ n, Even n ∧ (rotateLeft constant n).toNat < 256) ∧
    (∀ imm12, imm12 ∈ encodingsA32 constant ↔
      ∃ r < 16, (rotateLeft constant (2 * r)).toNat < 256 ∧
        imm12.toNat = 256 * r + (rotateLeft constant (2 * r)).toNat) ∧
    (∀ a ∈ encodingsA32 constant, ∀ b ∈ encodingsA32 constant, ∀ carry,
      slice a 8 4 ≠ 0 → slice b 8 4 ≠ 0 →
        expandA32 a carry = .ok ⟨constant, constant.toNat.testBit 31⟩ ∧
          expandA32 b carry = expandA32 a carry) ∧
    (∀ a ∈ encodingsA32 constant, slice a 8 4 = 0 →
      (∀ carry, expandA32 a carry = .ok ⟨constant, carry⟩) ∧
        ∀ b ∈ encodingsA32 constant, slice b 8 4 = 0 → b = a) := by
  refine ⟨fun _ => constantA32_eq_ok_iff, exists_mem_encodingsA32_iff,
    fun _ => mem_encodingsA32_iff, fun a ha b hb carry hza hzb => ?_,
    fun a ha hza => ⟨fun carry => ?_, fun b hb hzb => ?_⟩⟩
  · rw [expandA32_of_mem ha, expandA32_of_mem hb, if_neg hza, if_neg hzb]
    exact ⟨rfl, rfl⟩
  · rw [expandA32_of_mem ha, if_pos hza]
  · rw [eq_of_mem_of_slice_eq_zero ha hza, eq_of_mem_of_slice_eq_zero hb hzb]

/-- A single bit in the low byte, which three rotations reach as well. -/
theorem encodingsA32_eq_rotations_of_bit :
    0x040 ∈ encodingsA32 0x40 ∧ 0xF10 ∈ encodingsA32 0x40 ∧ 0xE04 ∈ encodingsA32 0x40 ∧
      slice 0xF10 8 4 ≠ 0 ∧ slice 0xE04 8 4 ≠ 0 ∧ slice 0x040 8 4 = 0 ∧
      expandA32 0xF10 true = .ok ⟨0x40, (0x40 : UInt32).toNat.testBit 31⟩ ∧
      expandA32 0xE04 true = expandA32 0xF10 true ∧
      expandA32 0x040 true = .ok ⟨0x40, true⟩ := by
  obtain ⟨-, -, -, hrotating, hplain⟩ := encodingsA32_eq_rotations 0x40
  have h0 : 0x040 ∈ encodingsA32 0x40 := ⟨by decide, rfl⟩
  have h15 : 0xF10 ∈ encodingsA32 0x40 := ⟨by decide, rfl⟩
  have h14 : 0xE04 ∈ encodingsA32 0x40 := ⟨by decide, rfl⟩
  have hz0 : slice 0x040 8 4 = 0 := by decide
  have hz15 : slice 0xF10 8 4 ≠ 0 := by decide
  have hz14 : slice 0xE04 8 4 ≠ 0 := by decide
  obtain ⟨hcarry, hequal⟩ := hrotating _ h15 _ h14 true hz15 hz14
  exact ⟨h0, h15, h14, hz15, hz14, hz0, hcarry, hequal, (hplain _ h0 hz0).1 true⟩

end Immediate

end ShifterOperand
