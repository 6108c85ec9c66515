import Mathlib.Data.Int.Basic
import ShifterOperand.Proofs.Shift.Barrel
import ShifterOperand.Proofs.Shift.Rotation

/-!
# Shifts in whole numbers

The architecture's rule for each kind of shift, stated on the word as a number without a width.
`Shift.rule` has the faults of an amount as well. Main statement: the shifter follows the rule for
every shift and every flagged word, and none of its own checks ever fails.
-/
namespace ShifterOperand

/-- The word as a number, with its carry. -/
def Flagged.exact (w : Flagged) : ℕ × Bool := (w.value.toNat, w.carry)

theorem Flagged.exact_inj {w u : Flagged} (h : w.exact = u.exact) : w = u := by
  obtain ⟨hv, hc⟩ := Prod.mk.inj h
  exact Flagged.ext (UInt32.toNat_inj.mp hv) hc

theorem Flagged.exact_lt (w : Flagged) : w.exact.1 < 2 ^ 32 := w.value.toNat_lt

/-- The number that a word of this value is, when its top bit counts as a sign. -/
def signed (v : ℕ) : ℤ := if v < 2 ^ 31 then v else v - 2 ^ 32

/-- The bit at a place of a number that its sign continues without end. -/
def signedBit (z : ℤ) (i : ℕ) : Bool := decide (z / 2 ^ i % 2 = 1)

/-- The shift of a word with its carry, or the fault of its amount. -/
def Shift.rule (s : Shift) (w : Flagged) : Except Fault (ℕ × Bool) :=
  let v := w.value.toNat
  let a := s.amount.toNat
  if a = 0 then .ok (v, w.carry)
  else
    match s.kind with
    | .lsl =>
      if a ≤ 31 then .ok (v * 2 ^ a % 2 ^ 32, (v * 2 ^ a).testBit 32)
      else .error (.amountRange .lsl s.amount)
    | .lsr =>
      if a ≤ 32 then .ok (v / 2 ^ a, v.testBit (a - 1)) else .error (.amountRange .lsr s.amount)
    | .asr =>
      if a ≤ 32 then .ok ((signed v / 2 ^ a % 2 ^ 32).toNat, v.testBit (a - 1))
      else .error (.amountRange .asr s.amount)
    | .ror =>
      if a ≤ 31 then .ok (rotated 32 a v, (rotated 32 a v).testBit 31)
      else .error (.amountRange .ror s.amount)
    | .rrx =>
      if a = 1 then .ok (w.carry.toNat * 2 ^ 31 + v / 2, v.testBit 0)
      else .error (.rrxAmount s.amount)

theorem signed_eq_toInt (v : UInt32) : signed v.toNat = v.toBitVec.toInt := by
  rw [BitVec.toInt_eq_toNat_cond, UInt32.toNat_toBitVec, signed]
  split <;> split <;> first | rfl | omega

/-- A rotation of the word is a rotation of its number. -/
theorem Word.toNat_rotateRight (value : UInt32) {count : UInt32} (h : count.toNat ≤ 31) :
    (rotateRight value count).toNat = rotated 32 count.toNat value.toNat := by
  have hv := value.toNat_lt
  apply eq_of_testBit_eq_of_lt (UInt32.toNat_lt _) (rotated_lt (by omega) hv)
  intro i hi
  rw [testBit_rotated (by omega) hv hi]
  change (value.toBitVec.rotateRight count.toNat).getLsbD i = value.toBitVec.getLsbD _
  rw [BitVec.getLsbD_rotateRight_of_lt (by omega)]
  by_cases hlow : i < 32 - count.toNat
  · rw [decide_eq_true hlow, cond_true, Nat.mod_eq_of_lt (by omega), Nat.add_comm]
  · rw [decide_eq_false hlow, cond_false, decide_eq_true hi, Bool.true_and,
      Nat.mod_eq_sub_mod (by omega), Nat.mod_eq_of_lt (by omega)]
    congr 1
    omega

namespace Barrel

variable (value : UInt32) {amount : UInt32}

theorem lsl_eq_exact (h : Kind.lsl.Takes amount) :
    ∃ r, lsl value amount = .ok r ∧
      r.exact = (value.toNat * 2 ^ amount.toNat % 2 ^ 32,
        (value.toNat * 2 ^ amount.toNat).testBit 32) := by
  have hhi : amount.toNat ≤ 31 := UInt32.le_iff_toNat_le.mp h.2
  refine ⟨_, lsl_eq_ok h, Prod.ext ?_ ?_⟩
  · simp only [Flagged.exact, UInt32.toNat_shiftLeft, Nat.shiftLeft_eq]
    rw [Nat.mod_eq_of_lt (by omega : amount.toNat < 32)]
  · simp only [Flagged.exact, Nat.testBit_mul_two_pow]
    rw [decide_eq_true (by omega : amount.toNat ≤ 32), Bool.true_and]

theorem lsr_eq_exact (h : Kind.lsr.Takes amount) :
    ∃ r, lsr value amount = .ok r ∧
      r.exact = (value.toNat / 2 ^ amount.toNat, value.toNat.testBit (amount.toNat - 1)) := by
  have hle : value.toNat / 2 ^ amount.toNat ≤ value.toNat := Nat.div_le_self _ _
  have hlt := hle.trans_lt value.toNat_lt
  exact ⟨_, lsr_eq_ok h, Prod.ext (UInt32.toNat_ofNat_of_lt' hlt) rfl⟩

theorem asr_eq_exact (h : Kind.asr.Takes amount) :
    ∃ r, asr value amount = .ok r ∧
      r.exact = ((signed value.toNat / 2 ^ amount.toNat % 2 ^ 32).toNat,
        value.toNat.testBit (amount.toNat - 1)) := by
  refine ⟨_, asr_eq_ok h, Prod.ext ?_ rfl⟩
  simp only [Flagged.exact, UInt32.toNat_ofBitVec]
  rw [signed_eq_toInt, BitVec.sshiftRight, BitVec.toNat_ofInt, Int.shiftRight_eq_div_pow]
  norm_cast

theorem ror_eq_exact (h : Kind.ror.Takes amount) :
    ∃ r, ror value amount = .ok r ∧
      r.exact = (rotated 32 amount.toNat value.toNat,
        (rotated 32 amount.toNat value.toNat).testBit 31) := by
  have hhi : amount.toNat ≤ 31 := UInt32.le_iff_toNat_le.mp h.2
  refine ⟨_, ror_eq_ok h, ?_⟩
  simp only [Flagged.exact, Word.toNat_rotateRight value hhi]

theorem rrx_eq_exact (carry : Bool) :
    ∃ r, rrx value carry = .ok r ∧
      r.exact = (carry.toNat * 2 ^ 31 + value.toNat / 2, value.toNat.testBit 0) := by
  have hv := value.toNat_lt
  have hc := carry.toNat_lt
  refine ⟨_, rrx_eq_ok carry, Prod.ext (UInt32.toNat_ofNat_of_lt' ?_) rfl⟩
  simp only [UInt32.size]
  omega

end Barrel

namespace Kind

theorem takes_iff {k : Kind} {amount : UInt32} :
    k.Takes amount ↔ 1 ≤ amount.toNat ∧ amount.toNat ≤ k.maxAmount.toNat := by
  rw [Takes, UInt32.le_iff_toNat_le, UInt32.le_iff_toNat_le]
  rfl

end Kind

namespace Shift

variable {k : Kind} {amount : UInt32} (w : Flagged)

theorem apply_eq_refused (hz : amount ≠ 0) (h : ¬ k.Takes amount) :
    (Shift.mk k amount).apply w = .error (.refused (k.amountFault amount)) := by
  rw [apply, if_neg hz, if_neg h]

/-- The result of an amount that the kind takes is the one of the rule. -/
theorem exists_apply_eq_ok (h : k.Takes amount) :
    ∃ r, (Shift.mk k amount).apply w = .ok r ∧ (Shift.mk k amount).rule w = .ok r.exact := by
  obtain ⟨hlo, hhi⟩ := Kind.takes_iff.mp h
  have hz : amount.toNat ≠ 0 := by omega
  rw [apply_eq_dispatch w h]
  simp only [rule, if_neg hz, dispatch]
  cases k with
  | lsl =>
    obtain ⟨r, hr, he⟩ := Barrel.lsl_eq_exact w.value h
    exact ⟨r, hr, by rw [he]; exact if_pos hhi⟩
  | lsr =>
    obtain ⟨r, hr, he⟩ := Barrel.lsr_eq_exact w.value h
    exact ⟨r, hr, by rw [he]; exact if_pos hhi⟩
  | asr =>
    obtain ⟨r, hr, he⟩ := Barrel.asr_eq_exact w.value h
    exact ⟨r, hr, by rw [he]; exact if_pos hhi⟩
  | ror =>
    obtain ⟨r, hr, he⟩ := Barrel.ror_eq_exact w.value h
    exact ⟨r, hr, by rw [he]; exact if_pos hhi⟩
  | rrx =>
    obtain ⟨r, hr, he⟩ := Barrel.rrx_eq_exact w.value w.carry
    exact ⟨r, hr, by rw [he]; exact if_pos (Nat.le_antisymm hhi hlo)⟩

/-- The rule has a fault for what is neither nothing nor an amount that the kind takes. -/
theorem rule_eq_error (hz : amount ≠ 0) (h : ¬ k.Takes amount) :
    (Shift.mk k amount).rule w = .error (k.amountFault amount) := by
  have hz' : amount.toNat ≠ 0 := fun e => hz (UInt32.toNat_inj.mp e)
  have hhi : ¬ amount.toNat ≤ k.maxAmount.toNat := by
    intro hle
    exact h (Kind.takes_iff.mpr ⟨Nat.one_le_iff_ne_zero.mpr hz', hle⟩)
  simp only [rule, if_neg hz']
  cases k with
  | lsl => exact if_neg hhi
  | lsr => exact if_neg hhi
  | asr => exact if_neg hhi
  | ror => exact if_neg hhi
  | rrx => exact if_neg fun e => hhi e.le

/-- The shifter follows the rule of the architecture: the same word and carry for every amount that
it shifts by, and the same fault for every amount that it refuses. -/
theorem apply_eq_rule (s : Shift) (w : Flagged) :
    (s.apply w).map Flagged.exact = (s.rule w).mapError Stop.refused ∧
      (∀ f, s.apply w ≠ .error (.breach f)) ∧ s.apply w ≠ .error .overflow := by
  obtain ⟨k, amount⟩ := s
  by_cases hz : amount = 0
  · subst hz
    exact ⟨rfl, fun f => nofun, nofun⟩
  by_cases ht : k.Takes amount
  · obtain ⟨r, happly, hrule⟩ := exists_apply_eq_ok w ht
    rw [happly, hrule]
    exact ⟨rfl, fun f => nofun, nofun⟩
  · rw [apply_eq_refused w hz ht, rule_eq_error w hz ht]
    refine ⟨rfl, fun f h => ?_, fun h => ?_⟩
    · cases h
    · cases h

example : (Shift.mk .asr 32).apply ⟨0x80000000, false⟩ = .ok ⟨0xFFFFFFFF, true⟩ := rfl

end Shift

/-- The answer of a function that examines its operands for the caller. -/
def Answer.Examined {α : Type} (x : Answer α) : Prop :=
  (∃ a, x = .ok a) ∨ ∃ f, x = .error (.refused f)

theorem Shift.examined_apply (s : Shift) (w : Flagged) : (s.apply w).Examined := by
  obtain ⟨k, amount⟩ := s
  by_cases hz : amount = 0
  · subst hz
    exact .inl ⟨w, rfl⟩
  · by_cases ht : k.Takes amount
    · obtain ⟨r, hr, -⟩ := Shift.exists_apply_eq_ok w ht
      exact .inl ⟨r, hr⟩
    · exact .inr ⟨_, Shift.apply_eq_refused w hz ht⟩

theorem Shift.examined_ofImmediate (code imm5 : UInt32) : (Shift.ofImmediate code imm5).Examined := by
  unfold Shift.ofImmediate
  split_ifs <;> first | exact .inl ⟨_, rfl⟩ | exact .inr ⟨_, rfl⟩

theorem Shift.examined_ofRegister (code : UInt32) : (Shift.ofRegister code).Examined := by
  unfold Shift.ofRegister
  split_ifs <;> first | exact .inl ⟨_, rfl⟩ | exact .inr ⟨_, rfl⟩

end ShifterOperand
