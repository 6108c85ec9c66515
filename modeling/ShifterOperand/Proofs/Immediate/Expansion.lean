import Mathlib.Data.Nat.Basic
import ShifterOperand.Immediate
import ShifterOperand.Proofs.Field

/-!
# Expanded immediates

What the expansions come to when their fields are written as quotients and remainders. Each of them
comes to something for every word: the fields are narrow enough that no step of the arithmetic leaves
the word.
-/
namespace ShifterOperand

namespace Word

/-- The field from bit `lsb` on, of `width` bits. -/
def slice (word : UInt32) (lsb width : ℕ) : UInt32 := .ofNat (word.toNat / 2 ^ lsb % 2 ^ width)

theorem toNat_slice (word : UInt32) {lsb width : ℕ} (h : width ≤ 32) :
    (slice word lsb width).toNat = word.toNat / 2 ^ lsb % 2 ^ width := by
  have hpow : 2 ^ width ≤ 2 ^ 32 := Nat.pow_le_pow_right (by omega) h
  have hmod := Nat.mod_lt (word.toNat / 2 ^ lsb) (Nat.two_pow_pos width)
  exact UInt32.toNat_ofNat_of_lt' (by simp only [UInt32.size]; omega)

theorem toNat_slice_lt (word : UInt32) (lsb : ℕ) {width : ℕ} (h : width ≤ 32) :
    (slice word lsb width).toNat < 2 ^ width := by
  rw [toNat_slice word h]
  exact Nat.mod_lt _ (Nat.two_pow_pos width)

theorem slice_eq_zero_iff (word : UInt32) (lsb width : ℕ) (h : width ≤ 32) :
    slice word lsb width = 0 ↔ word.toNat / 2 ^ lsb % 2 ^ width = 0 := by
  rw [← UInt32.toNat_inj, toNat_slice word h, UInt32.toNat_zero]

theorem field_eq_slice (word : UInt32) {msb lsb : UInt32} (hm : msb < 32) (hl : lsb ≤ msb) :
    field word msb lsb = .ok (slice word lsb.toNat (msb.toNat - lsb.toNat + 1)) :=
  field_eq_ok hm hl

end Word

namespace Immediate

open Word

/-- Twice the rotate field is well within the word. -/
theorem toNat_two_mul_slice (word : UInt32) :
    (2 * slice word 8 4).toNat = 2 * (slice word 8 4).toNat := by
  have hlt := toNat_slice_lt word 8 (by decide : 4 ≤ 32)
  rw [UInt32.toNat_mul]
  change 2 * (slice word 8 4).toNat % 2 ^ 32 = _
  omega

theorem toNat_two_mul_slice_le (word : UInt32) : (2 * slice word 8 4).toNat ≤ 31 := by
  have hlt := toNat_slice_lt word 8 (by decide : 4 ≤ 32)
  rw [toNat_two_mul_slice]
  omega

theorem two_mul_slice_eq_zero_iff (word : UInt32) :
    2 * slice word 8 4 = 0 ↔ slice word 8 4 = 0 := by
  rw [← UInt32.toNat_inj, ← UInt32.toNat_inj, toNat_two_mul_slice, UInt32.toNat_zero]
  omega

theorem expandA32_eq_ok (word : UInt32) (carry : Bool) :
    expandA32 word carry = .ok
      (if slice word 8 4 = 0 then ⟨slice word 0 8, carry⟩
      else
        let constant := rotateRight (slice word 0 8) (2 * slice word 8 4)
        ⟨constant, constant.toNat.testBit 31⟩) := by
  have hbyte : field word 7 0 = .ok (slice word 0 8) := field_eq_slice word (by decide) (by decide)
  have hrot : field word 11 8 = .ok (slice word 8 4) := field_eq_slice word (by decide) (by decide)
  have hmul : mul 2 (slice word 8 4) = .ok (2 * slice word 8 4) := by
    have hlt := toNat_slice_lt word 8 (by decide : 4 ≤ 32)
    apply mul_eq_ok
    change 2 * (slice word 8 4).toNat < UInt32.size
    simp only [UInt32.size]
    omega
  have hzero := two_mul_slice_eq_zero_iff word
  by_cases h : slice word 8 4 = 0
  · simp only [expandA32, hbyte, hrot, hmul, if_pos h, if_pos (hzero.mpr h), bind, Except.bind, pure,
      Except.pure]
  · simp only [expandA32, hbyte, hrot, hmul, if_neg h, if_neg (hzero.not.mpr h),
      testBit_eq_ok (by decide : (31 : UInt32) < 32), bind, Except.bind, pure, Except.pure]
    rfl

theorem exists_expandA32_of_eq_zero {word : UInt32} (h : slice word 8 4 = 0) :
    ∃ constant, ∀ carry, expandA32 word carry = .ok ⟨constant, carry⟩ :=
  ⟨_, fun carry => by rw [expandA32_eq_ok, if_pos h]⟩

/-- An expansion that rotates does not look at the carry. -/
theorem exists_expandA32_of_ne_zero {word : UInt32} (h : slice word 8 4 ≠ 0) :
    ∃ w, ∀ carry, expandA32 word carry = .ok w :=
  ⟨_, fun carry => by rw [expandA32_eq_ok, if_neg h]⟩

/-- The byte repeated in the pattern. -/
def repeated (byte pattern : UInt32) : UInt32 :=
  if pattern = 0 then byte
  else if pattern = 1 then byte <<< 16 ||| byte
  else if pattern = 2 then byte <<< 24 ||| byte <<< 8
  else byte <<< 24 ||| byte <<< 16 ||| byte <<< 8 ||| byte

theorem replicate_eq_ok (byte pattern : UInt32) :
    replicate byte pattern = .ok (repeated byte pattern) := by
  have hshift (n : UInt32) (h : n < 32) : shiftLeft byte n = .ok (byte <<< n) := shiftLeft_eq_ok h
  unfold replicate repeated
  rw [hshift 8 (by decide), hshift 16 (by decide), hshift 24 (by decide)]
  split_ifs <;> rfl

theorem expandT32_eq_ok (imm12 : UInt32) (carry : Bool) :
    expandT32 imm12 carry = .ok
      (if slice imm12 10 2 = 0 then ⟨repeated (slice imm12 0 8) (slice imm12 8 2), carry⟩
      else
        let constant := rotateRight (0x80 ||| slice imm12 0 7) (slice imm12 7 5)
        ⟨constant, constant.toNat.testBit 31⟩) := by
  have hbyte : field imm12 7 0 = .ok (slice imm12 0 8) := field_eq_slice imm12 (by decide) (by decide)
  have hform : field imm12 11 10 = .ok (slice imm12 10 2) :=
    field_eq_slice imm12 (by decide) (by decide)
  have hpattern : field imm12 9 8 = .ok (slice imm12 8 2) :=
    field_eq_slice imm12 (by decide) (by decide)
  have hlow : field imm12 6 0 = .ok (slice imm12 0 7) := field_eq_slice imm12 (by decide) (by decide)
  have hrot : field imm12 11 7 = .ok (slice imm12 7 5) := field_eq_slice imm12 (by decide) (by decide)
  by_cases h : slice imm12 10 2 = 0
  · simp only [expandT32, hbyte, hform, if_pos h, hpattern, replicate_eq_ok, bind, Except.bind, pure,
      Except.pure]
  · simp only [expandT32, hbyte, hform, if_neg h, hlow, hrot,
      testBit_eq_ok (by decide : (31 : UInt32) < 32), bind, Except.bind, pure, Except.pure]
    rfl

theorem exists_expandT32_of_eq_zero {imm12 : UInt32} (h : slice imm12 10 2 = 0) :
    ∃ constant, ∀ carry, expandT32 imm12 carry = .ok ⟨constant, carry⟩ :=
  ⟨_, fun carry => by rw [expandT32_eq_ok, if_pos h]⟩

theorem exists_expandT32_of_ne_zero {imm12 : UInt32} (h : slice imm12 10 2 ≠ 0) :
    ∃ w, ∀ carry, expandT32 imm12 carry = .ok w :=
  ⟨_, fun carry => by rw [expandT32_eq_ok, if_neg h]⟩

theorem gatherT32_eq_ok (word : UInt32) :
    gatherT32 word = .ok (slice word 26 1 <<< 11 ||| slice word 12 3 <<< 8 ||| slice word 0 8) := by
  have hi : bit word 26 = .ok (slice word 26 1) := field_eq_slice word (by decide) (by decide)
  have himm3 : field word 14 12 = .ok (slice word 12 3) := field_eq_slice word (by decide) (by decide)
  have hbyte : field word 7 0 = .ok (slice word 0 8) := field_eq_slice word (by decide) (by decide)
  unfold gatherT32
  rw [hi, himm3, hbyte]
  rfl

theorem scaledOffset_eq_ok (word : UInt32) : scaledOffset word = .ok (slice word 0 7 * 4) := by
  have hfield : field word 6 0 = .ok (slice word 0 7) := field_eq_slice word (by decide) (by decide)
  have hlt := toNat_slice_lt word 0 (by decide : 7 ≤ 32)
  unfold scaledOffset
  rw [hfield]
  change mul (slice word 0 7) 4 = _
  apply mul_eq_ok
  change (slice word 0 7).toNat * 4 < UInt32.size
  simp only [UInt32.size]
  omega

theorem exists_expandT32Word_eq_ok (word : UInt32) (carry : Bool) :
    ∃ w, expandT32Word word carry = .ok w := by
  unfold expandT32Word
  rw [gatherT32_eq_ok]
  exact ⟨_, expandT32_eq_ok _ carry⟩

end Immediate

end ShifterOperand
