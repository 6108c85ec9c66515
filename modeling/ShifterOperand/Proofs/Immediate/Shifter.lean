import ShifterOperand.Contract
import ShifterOperand.Proofs.Immediate.Assembly
import ShifterOperand.Proofs.Shift.Exact

/-!
# Expansion as a shift

The expansions rotate for themselves, with a case of their own for a rotation by nothing, and never
ask the barrel shifter. Main statement: they agree with it on the constant and on the carry, for
every word; the amounts that the fields give are never refused.
-/
namespace ShifterOperand

open Word (slice rotateRight)

/-- A rotation by less than the width of the word is never refused. -/
theorem Contract.apply_ror_eq_ok {amount : UInt32} (h : amount.toNat ≤ 31) (w : Flagged) :
    apply ⟨.ror, amount⟩ w = .ok
      (if amount = 0 then w
      else ⟨rotateRight w.value amount, (rotateRight w.value amount).toNat.testBit 31⟩) := by
  by_cases hz : amount = 0
  · subst hz
    rfl
  · have hlo : 1 ≤ amount.toNat := Nat.one_le_iff_ne_zero.mpr fun e => hz (UInt32.toNat_inj.mp e)
    have ht : Kind.ror.Takes amount := Kind.takes_iff.mpr ⟨hlo, h⟩
    rw [apply, Shift.apply_eq_dispatch w ht, if_neg hz]
    simp only [Shift.dispatch, Barrel.ror_eq_ok ht, Answer.demand_ok]

namespace Immediate

theorem expandA32_eq_apply (word : UInt32) (carry : Bool) :
    expandA32 word carry =
      Contract.apply ⟨.ror, 2 * slice word 8 4⟩ ⟨slice word 0 8, carry⟩ := by
  rw [expandA32_eq_ok, Contract.apply_ror_eq_ok (toNat_two_mul_slice_le word)]
  simp only [two_mul_slice_eq_zero_iff]

/-- The answer for a gathered T32 immediate, without a rotation of its own: the byte is multiplied and
the carry passed on, or the shifter is asked. -/
structure FollowsShifter (imm12 : UInt32) (carry : Bool) (answer : Answer Flagged) : Prop where
  repeats : slice imm12 10 2 = 0 → ∃ constant, answer = .ok ⟨constant, carry⟩ ∧
    constant.toNat = (slice imm12 0 8).toNat * multiplier (slice imm12 8 2).toNat
  rotates : slice imm12 10 2 ≠ 0 →
    answer = Contract.apply ⟨.ror, slice imm12 7 5⟩ ⟨0x80 ||| slice imm12 0 7, carry⟩ ∧
      answer = Barrel.ror (0x80 ||| slice imm12 0 7) (slice imm12 7 5) ∧ ∃ w, answer = .ok w

theorem followsShifter_expandT32 (imm12 : UInt32) (carry : Bool) :
    FollowsShifter imm12 carry (expandT32 imm12 carry) := by
  refine ⟨fun h => ⟨_, by rw [expandT32_eq_ok, if_pos h], ?_⟩, fun h => ?_⟩
  · exact toNat_repeated _ (Word.toNat_slice_lt imm12 0 (by decide))
  · have hlo := eight_le_slice h
    have hlt := Word.toNat_slice_lt imm12 7 (by decide : 5 ≤ 32)
    have ht : Kind.ror.Takes (slice imm12 7 5) := Kind.takes_iff.mpr ⟨by omega, Nat.le_of_lt_succ hlt⟩
    have hz : slice imm12 7 5 ≠ 0 := by
      intro e
      rw [e] at hlo
      cases hlo
    rw [expandT32_eq_ok, if_neg h, Contract.apply_ror_eq_ok (Nat.le_of_lt_succ hlt), if_neg hz,
      Barrel.ror_eq_ok ht]
    exact ⟨rfl, rfl, _, rfl⟩

/-- The expansions answer as the barrel shifter does. An A32 immediate is its byte rotated by twice
its rotate field, a rotation by nothing included. A T32 immediate is a byte with its top bit set,
rotated by the field above, or else a multiple of its byte, which passes the carry on. An instruction
word is expanded as the immediate that is gathered from it. -/
theorem expansions_follow_shifter :
    (∀ word carry,
      expandA32 word carry =
          Contract.apply ⟨.ror, 2 * slice word 8 4⟩ ⟨slice word 0 8, carry⟩ ∧
        ∃ w, expandA32 word carry = .ok w) ∧
    (∀ imm12 carry, FollowsShifter imm12 carry (expandT32 imm12 carry)) ∧
    ∀ word, ∃ imm12 : UInt32,
      imm12.toNat = 2048 * (slice word 26 1).toNat + 256 * (slice word 12 3).toNat +
          (slice word 0 8).toNat ∧
        ∀ carry, FollowsShifter imm12 carry (expandT32Word word carry) := by
  refine ⟨fun word carry => ⟨expandA32_eq_apply word carry, _, expandA32_eq_ok word carry⟩,
    followsShifter_expandT32, fun word => ?_⟩
  obtain ⟨imm12, hgather, hnum⟩ := exists_gatherT32_eq_ok word
  refine ⟨imm12, hnum, fun carry => ?_⟩
  have hword : expandT32Word word carry = expandT32 imm12 carry := by
    simp only [expandT32Word, hgather, bind, Except.bind]
  rw [hword]
  exact followsShifter_expandT32 imm12 carry

/-- An immediate of either form. -/
theorem expansions_follow_shifter_both_forms :
    (slice 0x2AB 10 2 = 0 ∧ ∃ constant, expandT32 0x2AB true = .ok ⟨constant, true⟩ ∧
      constant.toNat = (slice 0x2AB 0 8).toNat * multiplier (slice 0x2AB 8 2).toNat) ∧
    slice 0xFFF 10 2 ≠ 0 ∧
      expandT32 0xFFF true = Contract.apply ⟨.ror, slice 0xFFF 7 5⟩ ⟨0x80 ||| slice 0xFFF 0 7, true⟩ ∧
      expandT32 0xFFF true = Barrel.ror (0x80 ||| slice 0xFFF 0 7) (slice 0xFFF 7 5) ∧
      ∃ w, expandT32 0xFFF true = .ok w := by
  have hrepeats : slice 0x2AB 10 2 = 0 := by decide
  have hrotates : slice 0xFFF 10 2 ≠ 0 := by decide
  exact ⟨⟨hrepeats, (expansions_follow_shifter.2.1 0x2AB true).repeats hrepeats⟩, hrotates,
    (expansions_follow_shifter.2.1 0xFFF true).rotates hrotates⟩

end Immediate

end ShifterOperand
