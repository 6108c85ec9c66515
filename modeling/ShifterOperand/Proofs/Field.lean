import Mathlib.Algebra.Group.Nat.Defs
import ShifterOperand.Field

/-!
# Fields as quotients

In range, a field of a word or of a double word is a quotient reduced to the width of the field, the
test of a bit reads that bit of the number, and a sign extension is a shift up and back.
-/
namespace ShifterOperand

namespace Word

variable {value msb lsb pos width : UInt32}

theorem lowMask_eq_ok (h : width.toNat ≤ 32) :
    lowMask width = .ok (.ofNat (2 ^ width.toNat - 1)) := by
  unfold lowMask
  split
  · next h32 => subst h32; rfl
  · next h32 =>
    have hlt : width.toNat < 32 := by
      have : width.toNat ≠ 32 := fun e => h32 (UInt32.toNat_inj.mp e)
      omega
    have hpow : 2 ^ width.toNat < 2 ^ 32 := Nat.pow_lt_pow_right (by omega) hlt
    have htop : ((1 : UInt32) <<< width).toNat = 2 ^ width.toNat := by
      rw [UInt32.toNat_shiftLeft, Nat.mod_eq_of_lt hlt, Nat.shiftLeft_eq, UInt32.toNat_one,
        Nat.one_mul, Nat.mod_eq_of_lt hpow]
    have hone : (1 : UInt32) ≤ 1 <<< width := by
      rw [UInt32.le_iff_toNat_le, htop]
      exact Nat.one_le_two_pow
    simp only [shiftLeft_eq_ok (UInt32.lt_iff_toNat_lt.mpr hlt), bind, Except.bind, sub_eq_ok hone]
    congr 1
    apply UInt32.toNat_inj.mp
    rw [UInt32.toNat_sub_of_le _ _ hone, htop, UInt32.toNat_ofNat_of_lt' (by simp [UInt32.size]; omega)]
    rfl

/-- A field is a quotient of the word, reduced to the width of the field. -/
theorem field_eq_ok (hm : msb < 32) (hl : lsb ≤ msb) :
    field value msb lsb =
      .ok (.ofNat (value.toNat / 2 ^ lsb.toNat % 2 ^ (msb.toNat - lsb.toNat + 1))) := by
  have hm' : msb.toNat < 32 := UInt32.lt_iff_toNat_lt.mp hm
  have hl' : lsb.toNat ≤ msb.toNat := UInt32.le_iff_toNat_le.mp hl
  have hspan : (msb - lsb).toNat = msb.toNat - lsb.toNat := UInt32.toNat_sub_of_le _ _ hl
  have hadd : (msb - lsb).toNat + (1 : UInt32).toNat < UInt32.size := by
    rw [hspan]; simp [UInt32.size]; omega
  have hwidth : (msb - lsb + 1).toNat = msb.toNat - lsb.toNat + 1 := by
    rw [UInt32.toNat_add, Nat.mod_eq_of_lt hadd, hspan]; rfl
  have hmask := @lowMask_eq_ok (msb - lsb + 1) (by omega)
  have hlsb : lsb < 32 := UInt32.lt_iff_toNat_lt.mpr (by simp; omega)
  have hr : ¬ (32 ≤ msb ∨ msb < lsb) := by
    simp [UInt32.le_iff_toNat_le, UInt32.lt_iff_toNat_lt]; omega
  simp only [field, if_neg hr, sub_eq_ok hl, add_eq_ok hadd, hmask, shiftRight_eq_ok hlsb,
    bind, Except.bind, pure, Except.pure]
  congr 1
  apply UInt32.toNat_inj.mp
  have hpow : 2 ^ (msb.toNat - lsb.toNat + 1) ≤ 2 ^ 32 := Nat.pow_le_pow_right (by omega) (by omega)
  have hpos : 0 < 2 ^ (msb.toNat - lsb.toNat + 1) := Nat.two_pow_pos _
  have hmod := Nat.mod_lt (value.toNat / 2 ^ lsb.toNat) hpos
  rw [UInt32.toNat_and, hwidth, UInt32.toNat_ofNat_of_lt' (by simp [UInt32.size]; omega),
    UInt32.toNat_ofNat_of_lt' (by simp [UInt32.size]; omega), Nat.and_two_pow_sub_one_eq_mod,
    UInt32.toNat_shiftRight, Nat.shiftRight_eq_div_pow, Nat.mod_eq_of_lt (by omega : lsb.toNat < 32)]

theorem testBit_eq_ok (h : pos < 32) : testBit value pos = .ok (value.toNat.testBit pos.toNat) := by
  simp only [testBit, bit, field_eq_ok h (UInt32.le_refl pos), bind, Except.bind, pure, Except.pure]
  congr 1
  rw [Nat.testBit_eq_decide_div_mod_eq]
  have hmod := Nat.mod_lt (value.toNat / 2 ^ pos.toNat) (by omega : 0 < 2)
  simp only [Nat.sub_self, Nat.zero_add, Nat.pow_one, decide_eq_decide, ← UInt32.toNat_inj]
  rw [UInt32.toNat_ofNat_of_lt' (by simp [UInt32.size]; omega)]
  rfl

/-- A width of at least one leaves fewer places to move up and back than the word has. -/
theorem signExtend_eq_ok (hlo : 1 ≤ width) (hhi : width ≤ 32) :
    signExtend value width =
      .ok (.ofBitVec ((value <<< (32 - width)).toBitVec.sshiftRight (32 - width.toNat))) := by
  have hone : 1 ≤ width.toNat := UInt32.le_iff_toNat_le.mp hlo
  have hsub : (32 - width).toNat = 32 - width.toNat := UInt32.toNat_sub_of_le _ _ hhi
  have hplaces : 32 - width < 32 := by
    rw [UInt32.lt_iff_toNat_lt, hsub]
    change 32 - width.toNat < 32
    omega
  simp only [signExtend, if_pos (And.intro hlo hhi), sub_eq_ok hhi, shiftLeft_eq_ok hplaces,
    shiftRightSigned_eq_ok hplaces, hsub, bind, Except.bind]

end Word

namespace DoubleWord

variable {value : UInt64} {msb lsb width : UInt32}

theorem lowMask_eq_ok (h : width.toNat ≤ 63) :
    lowMask width = .ok (.ofNat (2 ^ width.toNat - 1)) := by
  by_cases h32 : width = 32
  · subst h32
    rfl
  have hpow : 2 ^ width.toNat < 2 ^ 64 := Nat.pow_lt_pow_right (by omega) (by omega)
  have htop : ((1 : UInt64) <<< width.toUInt64).toNat = 2 ^ width.toNat := by
    rw [UInt64.toNat_shiftLeft, UInt32.toNat_toUInt64,
      Nat.mod_eq_of_lt (by omega : width.toNat < 64), Nat.shiftLeft_eq, UInt64.toNat_one, Nat.one_mul,
      Nat.mod_eq_of_lt hpow]
  have hone : (1 : UInt64) ≤ 1 <<< width.toUInt64 := by
    rw [UInt64.le_iff_toNat_le, htop]
    exact Nat.one_le_two_pow
  simp only [lowMask, if_neg h32,
    shiftLeft_eq_ok (UInt32.lt_iff_toNat_lt.mpr (by simp; omega) : width < 64), bind, Except.bind,
    sub_eq_ok hone]
  congr 1
  apply UInt64.toNat_inj.mp
  rw [UInt64.toNat_sub_of_le _ _ hone, htop, UInt64.toNat_ofNat_of_lt' (by simp [UInt64.size]; omega)]
  rfl

theorem field_eq_ok (hm : msb < 64) (hl : lsb ≤ msb) (hs : msb - lsb < 32) :
    field value msb lsb =
      .ok (.ofNat (value.toNat / 2 ^ lsb.toNat % 2 ^ (msb.toNat - lsb.toNat + 1))) := by
  have hm' : msb.toNat < 64 := UInt32.lt_iff_toNat_lt.mp hm
  have hl' : lsb.toNat ≤ msb.toNat := UInt32.le_iff_toNat_le.mp hl
  have hspan : (msb - lsb).toNat = msb.toNat - lsb.toNat := UInt32.toNat_sub_of_le _ _ hl
  have hs' : (msb - lsb).toNat < 32 := UInt32.lt_iff_toNat_lt.mp hs
  have hadd : (msb - lsb).toNat + (1 : UInt32).toNat < UInt32.size := by
    simp [UInt32.size]; omega
  have hwidth : (msb - lsb + 1).toNat = msb.toNat - lsb.toNat + 1 := by
    rw [UInt32.toNat_add, Nat.mod_eq_of_lt hadd, hspan]; rfl
  have hmask := @lowMask_eq_ok (msb - lsb + 1) (by omega)
  have hlsb : lsb < 64 := UInt32.lt_iff_toNat_lt.mpr (by simp; omega)
  have hr : ¬ (64 ≤ msb ∨ msb < lsb) := by
    simp [UInt32.le_iff_toNat_le, UInt32.lt_iff_toNat_lt]; omega
  have hn : ¬ 32 ≤ msb - lsb := by
    simp [UInt32.le_iff_toNat_le]; omega
  simp only [field, if_neg hr, Word.sub_eq_ok hl, if_neg hn, Word.add_eq_ok hadd, hmask,
    shiftRight_eq_ok hlsb, bind, Except.bind, pure, Except.pure]
  congr 1
  apply UInt32.toNat_inj.mp
  have hpow : 2 ^ (msb.toNat - lsb.toNat + 1) ≤ 2 ^ 32 := Nat.pow_le_pow_right (by omega) (by omega)
  have hpos : 0 < 2 ^ (msb.toNat - lsb.toNat + 1) := Nat.two_pow_pos _
  have hmod := Nat.mod_lt (value.toNat / 2 ^ lsb.toNat) hpos
  rw [UInt64.toNat_toUInt32, UInt64.toNat_and, hwidth,
    UInt64.toNat_ofNat_of_lt' (by simp [UInt64.size]; omega),
    UInt32.toNat_ofNat_of_lt' (by simp [UInt32.size]; omega), Nat.and_two_pow_sub_one_eq_mod,
    UInt64.toNat_shiftRight, Nat.shiftRight_eq_div_pow, UInt32.toNat_toUInt64,
    Nat.mod_eq_of_lt (by omega : lsb.toNat < 64), Nat.mod_eq_of_lt (by omega)]

end DoubleWord

end ShifterOperand
