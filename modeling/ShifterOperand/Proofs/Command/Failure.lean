import ShifterOperand.Command.Run
import ShifterOperand.Proofs.Contract.Conditions

/-!
# When a command fails

`Fails` says from the values of a command why it has no report. Main statement: a run fails for these
reasons and for no others (`run_eq_error_iff`).
-/
namespace ShifterOperand.Command

/-- The command fails for this reason. The three commands for words of the Thumb set never do. -/
inductive Fails : Command → Failure → Prop
  | amount {value amount : UInt32} {kind : Kind} {carry : Bool} (hz : amount ≠ 0)
      (ht : ¬ kind.Takes amount) :
      Fails (shift value kind amount carry) (.shift ⟨kind, amount⟩ (kind.amountFault amount))
  | imm5Width {ty imm5 : UInt32} (h : 32 ≤ imm5) : Fails (immShift ty imm5) (.imm5Width imm5)
  /-- The type is not looked at before the width is right. -/
  | immediateType {ty imm5 : UInt32} (hw : imm5 < 32) (h : 3 < ty) :
      Fails (immShift ty imm5) (.operand (.shiftType ty))
  | registerType {ty : UInt32} (h : 3 < ty) : Fails (regShift ty) (.operand (.shiftType ty))
  | imm12Width {imm12 : UInt32} {carry : Bool} (h : 0xFFF < imm12) :
      Fails (armImm imm12 carry) (.imm12Width imm12)
  | registerNumber {reg : UInt32} (h : 16 ≤ reg) : Fails (badReg reg) (.registerNumber reg)

variable {command : Command} {failure : Failure}

/-- A command that passes on the answer of a function fails when the function is not given what it
asks for. -/
theorem passesOn_eq_error_iff {α : Type} {x : Answer α} {p : Prop} {f : Fault}
    {refusal : Fault → Failure} {report : α → Report} (h : x.Asks p (.refused f)) :
    (do return report (← ofAnswer refusal x)) = Except.error failure ↔
      ¬ p ∧ failure = refusal f := by
  by_cases hp : p
  · obtain ⟨a, rfl⟩ := h.answers hp
    exact iff_of_false nofun fun hn => hn.1 hp
  · rw [h.stops hp]
    exact ⟨fun he => ⟨hp, (Except.error.inj he).symm⟩, fun hf => congrArg Except.error hf.2.symm⟩

/-- A command that passes on the answer of a function reports what the function gives. -/
theorem passesOn_eq_ok_iff {α : Type} {x : Answer α} {refusal : Fault → Failure}
    {report : α → Report} {r : Report} :
    (do return report (← ofAnswer refusal x)) = Except.ok r ↔ ∃ a, x = .ok a ∧ report a = r := by
  cases x with
  | ok a =>
    constructor
    · intro h
      exact ⟨a, rfl, Except.ok.inj h⟩
    · rintro ⟨_, ⟨⟩, rfl⟩
      rfl
  | error stop =>
    constructor
    · intro h
      cases stop <;> cases h
    · rintro ⟨_, ⟨⟩, -⟩

/-- A command that passes on an answer which is always there does not fail. -/
theorem passesOn_ne_error {α : Type} {x : Answer α} {refusal : Fault → Failure}
    {report : α → Report} (h : ∃ a, x = .ok a) :
    (do return report (← ofAnswer refusal x)) ≠ Except.error failure := by
  obtain ⟨a, rfl⟩ := h
  exact nofun

theorem fails_of_run (h : command.run = .error failure) : command.Fails failure := by
  cases command with
  | shift value kind amount carry =>
    obtain ⟨hn, rfl⟩ := (passesOn_eq_error_iff (Shift.apply_asks ⟨kind, amount⟩ ⟨value, carry⟩)).mp h
    obtain ⟨hz, ht⟩ := not_or.mp hn
    exact .amount hz ht
  | immShift ty imm5 =>
    rw [run] at h
    split_ifs at h with hw
    · obtain ⟨hn, rfl⟩ := (passesOn_eq_error_iff (Shift.ofImmediate_asks ty imm5)).mp h
      exact .immediateType hw (UInt32.not_le.mp hn)
    · cases h
      exact .imm5Width (UInt32.not_lt.mp hw)
  | regShift ty =>
    obtain ⟨hn, rfl⟩ := (passesOn_eq_error_iff (Shift.ofRegister_asks ty)).mp h
    exact .registerType (UInt32.not_le.mp hn)
  | armImm imm12 carry =>
    rw [run] at h
    split_ifs at h with hw
    · exact absurd h (passesOn_ne_error ⟨_, Immediate.expandA32_eq_ok imm12 carry⟩)
    · cases h
      exact .imm12Width (UInt32.not_le.mp hw)
  | thumbImm word carry =>
    exact absurd h (passesOn_ne_error (Immediate.exists_expandT32Word_eq_ok word carry))
  | thumbImm12 word =>
    exact absurd h (passesOn_ne_error ⟨_, Immediate.gatherT32_eq_ok word⟩)
  | thumbImmScaled word =>
    exact absurd h (passesOn_ne_error ⟨_, Immediate.scaledOffset_eq_ok word⟩)
  | badReg reg =>
    rw [run] at h
    split_ifs at h with hr
    cases h
    exact .registerNumber (UInt32.not_lt.mp hr)

theorem run_of_fails (h : command.Fails failure) : command.run = .error failure := by
  cases h with
  | amount hz ht => exact (passesOn_eq_error_iff (Shift.apply_asks _ _)).mpr ⟨not_or.mpr ⟨hz, ht⟩, rfl⟩
  | imm5Width h => exact if_neg (UInt32.not_lt.mpr h)
  | immediateType hw h =>
    rw [run, if_pos hw]
    exact (passesOn_eq_error_iff (Shift.ofImmediate_asks _ _)).mpr ⟨UInt32.not_le.mpr h, rfl⟩
  | registerType h =>
    exact (passesOn_eq_error_iff (Shift.ofRegister_asks _)).mpr ⟨UInt32.not_le.mpr h, rfl⟩
  | imm12Width h => exact if_neg (UInt32.not_le.mpr h)
  | registerNumber h => exact if_neg (UInt32.not_lt.mpr h)

theorem run_eq_error_iff : command.run = .error failure ↔ command.Fails failure :=
  ⟨fails_of_run, run_of_fails⟩

end ShifterOperand.Command
