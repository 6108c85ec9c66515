import ShifterOperand.Proofs.Field
import ShifterOperand.Shift.Barrel

/-!
# Shifts that succeed

What each function of the barrel answers for an amount that its kind takes: the word, and the bit that
leaves it as the carry.
-/
namespace ShifterOperand.Barrel

variable {value amount : UInt32}

theorem lsl_eq_ok (h : Kind.lsl.Takes amount) :
    lsl value amount = .ok ⟨value <<< amount, value.toNat.testBit (32 - amount.toNat)⟩ := by
  have hlo : 1 ≤ amount.toNat := UInt32.le_iff_toNat_le.mp h.1
  have hhi : amount.toNat ≤ 31 := UInt32.le_iff_toNat_le.mp h.2
  have hlt : amount < 32 := UInt32.lt_iff_toNat_lt.mpr (by simp; omega)
  have hle : amount ≤ 32 := UInt32.le_iff_toNat_le.mpr (by simp; omega)
  have hsub : (32 - amount).toNat = 32 - amount.toNat := UInt32.toNat_sub_of_le _ _ hle
  have hpos : 32 - amount < 32 := UInt32.lt_iff_toNat_lt.mpr (by rw [hsub]; simp; omega)
  simp only [lsl, require_eq_ok h, Word.shiftLeft_eq_ok hlt, Word.sub_eq_ok hle,
    Word.testBit_eq_ok hpos, hsub, bind, Except.bind, pure, Except.pure]

/-- The last bit that a shift to the right moves out of the word. -/
theorem testBit_sub_one (hlo : 1 ≤ amount) (hhi : amount ≤ 32) :
    Word.testBit value (amount - 1) = .ok (value.toNat.testBit (amount.toNat - 1)) := by
  have hsub : (amount - 1).toNat = amount.toNat - 1 := UInt32.toNat_sub_of_le _ _ hlo
  have hle : amount.toNat ≤ 32 := UInt32.le_iff_toNat_le.mp hhi
  have hpos : amount - 1 < 32 := by
    rw [UInt32.lt_iff_toNat_lt, hsub]
    change amount.toNat - 1 < 32
    omega
  rw [Word.testBit_eq_ok hpos, hsub]

theorem lsr_eq_ok (h : Kind.lsr.Takes amount) :
    lsr value amount = .ok ⟨.ofNat (value.toNat / 2 ^ amount.toNat),
      value.toNat.testBit (amount.toNat - 1)⟩ := by
  have hone : (1 : UInt32) ≤ amount := h.1
  have hhi : amount.toNat ≤ 32 := UInt32.le_iff_toNat_le.mp h.2
  simp only [lsr, require_eq_ok h, Word.sub_eq_ok hone, testBit_sub_one hone h.2, bind,
    Except.bind, pure, Except.pure]
  have hv := value.toNat_lt
  split
  · next hlt =>
    have hlt' : amount.toNat < 32 := UInt32.lt_iff_toNat_lt.mp hlt
    simp only [Word.shiftRight_eq_ok hlt]
    congr 2
    apply UInt32.toNat_inj.mp
    have : value.toNat / 2 ^ amount.toNat ≤ value.toNat := Nat.div_le_self _ _
    rw [UInt32.toNat_ofNat_of_lt' (by simp [UInt32.size]; omega), UInt32.toNat_shiftRight,
      Nat.mod_eq_of_lt hlt', Nat.shiftRight_eq_div_pow]
  · next hge =>
    have hge' : amount.toNat = 32 := by
      have : ¬ amount.toNat < 32 := fun e => hge (UInt32.lt_iff_toNat_lt.mpr e)
      omega
    congr 2
    rw [hge', Nat.div_eq_of_lt hv]
    rfl

theorem asr_eq_ok (h : Kind.asr.Takes amount) :
    asr value amount = .ok ⟨.ofBitVec (value.toBitVec.sshiftRight amount.toNat),
      value.toNat.testBit (amount.toNat - 1)⟩ := by
  have hone : (1 : UInt32) ≤ amount := h.1
  have hhi : amount.toNat ≤ 32 := UInt32.le_iff_toNat_le.mp h.2
  have hadd : amount.toNat + (31 : UInt32).toNat < UInt32.size := by simp [UInt32.size]; omega
  have hmsb : (amount + 31).toNat = amount.toNat + 31 := by
    rw [UInt32.toNat_add, Nat.mod_eq_of_lt hadd]; rfl
  have hlt : amount + 31 < 64 := UInt32.lt_iff_toNat_lt.mpr (by rw [hmsb]; simp; omega)
  have hle : amount ≤ amount + 31 := UInt32.le_iff_toNat_le.mpr (by omega)
  have hspan : amount + 31 - amount < 32 := by
    rw [UInt32.lt_iff_toNat_lt, UInt32.toNat_sub_of_le _ _ hle, hmsb]; simp
  simp only [asr, require_eq_ok h, Word.sub_eq_ok hone, testBit_sub_one hone h.2,
    Word.add_eq_ok hadd, DoubleWord.field_eq_ok hlt hle hspan, hmsb, bind, Except.bind, pure,
    Except.pure]
  congr 2
  apply UInt32.toBitVec_inj.mp
  apply BitVec.eq_of_getLsbD_eq
  intro i hi
  have e : amount.toNat + 31 - amount.toNat + 1 = 32 := by omega
  simp only [e, UInt32.toBitVec_ofNat', BitVec.getLsbD_ofNat, hi, decide_true, Bool.true_and,
    Word.signExtended, BitVec.getLsbD_sshiftRight, Nat.testBit_mod_two_pow, Nat.testBit_div_two_pow]
  change (BitVec.signExtend 64 value.toBitVec).getLsbD (i + amount.toNat) = _
  rw [BitVec.getLsbD_signExtend, Nat.add_comm i]
  simp [hi, (by omega : amount.toNat + i < 64)]

theorem ror_eq_ok (h : Kind.ror.Takes amount) :
    ror value amount = .ok ⟨Word.rotateRight value amount,
      (Word.rotateRight value amount).toNat.testBit 31⟩ := by
  simp only [ror, require_eq_ok h, Word.testBit_eq_ok (by decide : (31 : UInt32) < 32), bind,
    Except.bind, pure, Except.pure]
  rfl

theorem rrx_eq_ok (carry : Bool) :
    rrx value carry = .ok ⟨.ofNat (carry.toNat * 2 ^ 31 + value.toNat / 2), value.toNat.testBit 0⟩ := by
  have hv := value.toNat_lt
  simp only [rrx, Word.shiftLeft_eq_ok (by decide : (31 : UInt32) < 32),
    Word.field_eq_ok (by decide : (31 : UInt32) < 32) (by decide : (1 : UInt32) ≤ 31),
    Word.testBit_eq_ok (by decide : (0 : UInt32) < 32), bind, Except.bind, pure, Except.pure]
  congr 2
  apply UInt32.toNat_inj.mp
  have hhalf : value.toNat / 2 < 2 ^ 31 := by omega
  have e : value.toNat / 2 ^ (1 : UInt32).toNat % 2 ^ ((31 : UInt32).toNat - (1 : UInt32).toNat + 1) =
      value.toNat / 2 := by
    simp; omega
  rw [e, UInt32.toNat_or, UInt32.toNat_ofNat_of_lt' (by simp [UInt32.size]; omega)]
  cases carry
  · simp; omega
  · simp [UInt32.toNat_shiftLeft]
    rw [Nat.mod_eq_of_lt (by omega)]
    exact (Nat.two_pow_add_eq_or_of_lt hhalf 1).symm

end ShifterOperand.Barrel
