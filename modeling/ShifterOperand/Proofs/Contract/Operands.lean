import ShifterOperand.Machine
import ShifterOperand.Proofs.Contract.Conditions

/-!
# Immediate and register operands

The amount of a shift stands in the instruction or in a register, and the two are decoded apart. The
decoders use the type code in one way and differ in what they make of an amount of zero. Main
statement: an amount other than zero is applied alike on both ways, faults included, so that it may
move from the instruction to a register anywhere in a run. At zero the ways part for every code that
does not shift to the left, and a single word shows it.
-/
namespace ShifterOperand

namespace Contract

/-- Decodes an immediate operand and applies its shift. -/
def applyImmediate (code imm5 : UInt32) (w : Flagged) : Answer Flagged := do
  apply (← decodeImmediate code imm5) w

/-- Decodes a register operand and applies its shift by the amount that the register holds. -/
def applyRegister (code amount : UInt32) (w : Flagged) : Answer Flagged := do
  apply ⟨← decodeRegister code, amount⟩ w

variable {code amount imm5 : UInt32} {k : Kind} {s : Shift} (w : Flagged)

theorem applyImmediate_of_decoded (h : Shift.ofImmediate code imm5 = .ok s) :
    applyImmediate code imm5 w = apply s w := by
  simp only [applyImmediate, decodeImmediate, h, Answer.demand_ok, bind, Except.bind]

theorem applyRegister_of_decoded (h : Shift.ofRegister code = .ok k) (amount : UInt32) :
    applyRegister code amount w = apply ⟨k, amount⟩ w := by
  simp only [applyRegister, decodeRegister, h, Answer.demand_ok, bind, Except.bind]

theorem applyImmediate_of_three_lt (h : 3 < code) (imm5 : UInt32) :
    applyImmediate code imm5 w = .error (.breach (.shiftType code)) := by
  rw [applyImmediate, decodeImmediate, Shift.ofImmediate_of_three_lt h]
  rfl

theorem applyRegister_of_three_lt (h : 3 < code) (amount : UInt32) :
    applyRegister code amount w = .error (.breach (.shiftType code)) := by
  rw [applyRegister, decodeRegister, Shift.ofRegister_of_three_lt h]
  rfl

/-- An amount that is not zero is applied alike, wherever it stands. -/
theorem applyImmediate_of_ne_zero (hz : amount ≠ 0) (code : UInt32) :
    applyImmediate code amount w = applyRegister code amount w := by
  by_cases hlt : 3 < code
  · rw [applyImmediate_of_three_lt w hlt, applyRegister_of_three_lt w hlt]
  · obtain ⟨k, hk⟩ := Shift.exists_ofRegister_eq_ok (UInt32.not_lt.mp hlt)
    rw [applyRegister_of_decoded w hk,
      applyImmediate_of_decoded w (Shift.ofImmediate_of_ne_zero hk hz)]

theorem applyRegister_zero (h : code ≤ 3) : applyRegister code 0 w = .ok w := by
  obtain ⟨k, hk⟩ := Shift.exists_ofRegister_eq_ok h
  rw [applyRegister_of_decoded w hk]
  rfl

theorem applyImmediate_three_zero : applyImmediate 3 0 w = Barrel.rrx w.value w.carry := by
  have hdecode : Shift.ofImmediate 3 0 = .ok ⟨.rrx, 1⟩ := rfl
  rw [applyImmediate_of_decoded w hdecode, Barrel.rrx_eq_apply]

theorem exists_applyImmediate_zero (h : code ≤ 3) : ∃ u, applyImmediate code 0 w = .ok u := by
  rcases Shift.eq_of_le_three h with rfl | rfl | rfl | rfl
  all_goals
    rw [applyImmediate_of_decoded w rfl]
    exact (Shift.apply_asks _ w).demand.answers (by decide)

/-- The word that tells the two ways apart at zero: its lowest bit stays where it is, or leaves. -/
theorem applyImmediate_zero_ne (h : code = 1 ∨ code = 2 ∨ code = 3) :
    applyImmediate code 0 ⟨1, false⟩ ≠ applyRegister code 0 ⟨1, false⟩ := by
  rcases h with rfl | rfl | rfl
  all_goals
    rw [applyRegister_zero _ (by decide)]
    exact fun heq => absurd (Except.ok.inj heq) (by decide)

/-- The two ways agree on every word when the amount is not zero, and when the code shifts to the left
or is none. -/
theorem applyImmediate_eq_applyRegister_iff :
    (∀ w, applyImmediate code amount w = applyRegister code amount w) ↔
      amount ≠ 0 ∨ code = 0 ∨ 3 < code := by
  constructor
  · intro h
    by_contra hnot
    simp only [not_or, not_not, UInt32.not_lt] at hnot
    obtain ⟨rfl, hzero, hle⟩ := hnot
    exact applyImmediate_zero_ne ((Shift.eq_of_le_three hle).resolve_left hzero) (h _)
  · rintro (hz | rfl | hlt) w
    · exact applyImmediate_of_ne_zero w hz code
    · rfl
    · rw [applyImmediate_of_three_lt w hlt, applyRegister_of_three_lt w hlt]

end Contract

namespace Machine

/-- The step with its amount in a register, if it is an immediate amount that may move there. -/
def Step.toRegister : Step → Step
  | immediate code imm5 => if imm5 = 0 then immediate code imm5 else register code imm5
  | st => st

theorem next_toRegister (w : Flagged) (st : Step) : st.toRegister.next w = st.next w := by
  cases st with
  | immediate code imm5 =>
    rw [Step.toRegister]
    split_ifs with hz
    · rfl
    · exact (Contract.applyImmediate_of_ne_zero w hz code).symm
  | _ => rfl

theorem run_map_toRegister (w : Flagged) (steps : List Step) :
    run w (steps.map Step.toRegister) = run w steps := by
  induction steps generalizing w with
  | nil => rfl
  | cons st rest ih => rw [List.map_cons, run, run, next_toRegister, ih]

end Machine

namespace Contract

/-- An amount that is not zero gives the same answer in the instruction and in a register, and a run
does not see it move from the one to the other. An amount of zero in a register changes nothing. In
the instruction it stands for a shift by nothing to the left, by the full width to the right, and for
the rotation with extend in the place of the rotation. These are the only operands that differ. -/
theorem operands_agree_but_at_zero :
    (∀ code amount, amount ≠ 0 → ∀ w,
      applyImmediate code amount w = applyRegister code amount w) ∧
    (∀ code, code ≤ 3 → ∀ w, applyRegister code 0 w = .ok w) ∧
    (∀ w : Flagged, applyImmediate 0 0 w = applyRegister 0 0 w ∧
      applyImmediate 1 0 w = applyRegister 1 32 w ∧
      applyImmediate 2 0 w = applyRegister 2 32 w ∧
      applyImmediate 3 0 w = Barrel.rrx w.value w.carry ∧
      ∀ code, code ≤ 3 → ∃ u, applyImmediate code 0 w = .ok u) ∧
    (∀ code amount, (∀ w, applyImmediate code amount w = applyRegister code amount w) ↔
      amount ≠ 0 ∨ code = 0 ∨ 3 < code) ∧
    ∀ w steps, Machine.run w (steps.map Machine.Step.toRegister) = Machine.run w steps := by
  refine ⟨fun code amount hz w => applyImmediate_of_ne_zero w hz code,
    fun code h w => applyRegister_zero w h, fun w => ⟨rfl, rfl, rfl, ?_, fun code h => ?_⟩,
    fun code amount => applyImmediate_eq_applyRegister_iff, Machine.run_map_toRegister⟩
  · exact applyImmediate_three_zero w
  · exact exists_applyImmediate_zero w h

/-- A rotation by the full width, which both ways stop at, and a rotation by nothing, which only the
register has. -/
theorem operands_agree_but_at_zero_ror :
    applyImmediate 3 32 ⟨1, true⟩ = applyRegister 3 32 ⟨1, true⟩ ∧
      applyRegister 3 0 ⟨1, true⟩ = .ok ⟨1, true⟩ ∧
      ∃ u, applyImmediate 3 0 ⟨1, true⟩ = .ok u := by
  obtain ⟨hagree, hregister, himmediate, -⟩ := operands_agree_but_at_zero
  exact ⟨hagree 3 32 (by decide) _, hregister 3 (by decide) _,
    (himmediate _).2.2.2.2 3 (by decide)⟩

end Contract

end ShifterOperand
