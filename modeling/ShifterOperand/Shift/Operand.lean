import ShifterOperand.Fault

/-!
# Shift operands

A `Shift` is a kind with an amount, as an instruction applies it to a register. `ofImmediate` and
`ofRegister` decode it from the fields of an instruction. An immediate amount of zero is not a shift
by nothing, except to the left: the two shifts to the right then move by the full width, and the
rotation becomes the one with extend. An amount held in a register is not known yet, so that decoding
gives the kind alone, and that kind is never the rotation with extend.
-/
namespace ShifterOperand

@[ext] structure Shift where
  kind : Kind
  amount : UInt32
  deriving DecidableEq, Repr

namespace Shift

/-- The kind and the amount, which the rotation with extend leaves out. -/
def text (s : Shift) : String :=
  if s.kind = .rrx then s.kind.mnemonic
  else s.kind.mnemonic ++ " #" ++ Text.Numeral.decimal s.amount

/-- The shift of an operand with an immediate amount, from its type code and its amount field. -/
def ofImmediate (code imm5 : UInt32) : Answer Shift :=
  if code = 0 then .ok ⟨.lsl, imm5⟩
  else if code = 1 then .ok ⟨.lsr, if imm5 = 0 then 32 else imm5⟩
  else if code = 2 then .ok ⟨.asr, if imm5 = 0 then 32 else imm5⟩
  else if code = 3 then .ok (if imm5 = 0 then ⟨.rrx, 1⟩ else ⟨.ror, imm5⟩)
  else .error (.refused (.shiftType code))

/-- The kind of a shift whose amount is held in a register, from its type code. -/
def ofRegister (code : UInt32) : Answer Kind :=
  if code = 0 then .ok .lsl
  else if code = 1 then .ok .lsr
  else if code = 2 then .ok .asr
  else if code = 3 then .ok .ror
  else .error (.refused (.shiftType code))

variable {code imm5 : UInt32} {k : Kind}

theorem eq_of_le_three (h : code ≤ 3) : code = 0 ∨ code = 1 ∨ code = 2 ∨ code = 3 := by
  have h' : code.toNat ≤ 3 := UInt32.le_iff_toNat_le.mp h
  simp only [← UInt32.toNat_inj, UInt32.reduceToNat]
  omega

theorem ne_of_three_lt {c : UInt32} (h : 3 < code) (hc : c ≤ 3) : code ≠ c := by
  rintro rfl
  exact UInt32.not_le.mpr h hc

theorem ofImmediate_of_three_lt (h : 3 < code) (imm5 : UInt32) :
    ofImmediate code imm5 = .error (.refused (.shiftType code)) := by
  rw [ofImmediate, if_neg (ne_of_three_lt h (by decide)), if_neg (ne_of_three_lt h (by decide)),
    if_neg (ne_of_three_lt h (by decide)), if_neg (ne_of_three_lt h (by decide))]

theorem ofRegister_of_three_lt (h : 3 < code) :
    ofRegister code = .error (.refused (.shiftType code)) := by
  rw [ofRegister, if_neg (ne_of_three_lt h (by decide)), if_neg (ne_of_three_lt h (by decide)),
    if_neg (ne_of_three_lt h (by decide)), if_neg (ne_of_three_lt h (by decide))]

theorem ofRegister_eq_ok_iff :
    ofRegister code = .ok k ↔
      code = 0 ∧ k = .lsl ∨ code = 1 ∧ k = .lsr ∨ code = 2 ∧ k = .asr ∨ code = 3 ∧ k = .ror := by
  constructor
  · intro h
    by_cases hlt : 3 < code
    · rw [ofRegister_of_three_lt hlt] at h
      cases h
    rcases eq_of_le_three (UInt32.not_lt.mp hlt) with rfl | rfl | rfl | rfl
    · exact .inl ⟨rfl, (Except.ok.inj h).symm⟩
    · exact .inr (.inl ⟨rfl, (Except.ok.inj h).symm⟩)
    · exact .inr (.inr (.inl ⟨rfl, (Except.ok.inj h).symm⟩))
    · exact .inr (.inr (.inr ⟨rfl, (Except.ok.inj h).symm⟩))
  · rintro (⟨rfl, rfl⟩ | ⟨rfl, rfl⟩ | ⟨rfl, rfl⟩ | ⟨rfl, rfl⟩) <;> rfl

theorem exists_ofRegister_eq_ok (h : code ≤ 3) : ∃ k, ofRegister code = .ok k := by
  rcases eq_of_le_three h with rfl | rfl | rfl | rfl
  · exact ⟨.lsl, rfl⟩
  · exact ⟨.lsr, rfl⟩
  · exact ⟨.asr, rfl⟩
  · exact ⟨.ror, rfl⟩

/-- An amount field that is not zero is the amount, and the code then names the kind alone. -/
theorem ofImmediate_of_ne_zero (hk : ofRegister code = .ok k) (hz : imm5 ≠ 0) :
    ofImmediate code imm5 = .ok ⟨k, imm5⟩ := by
  rcases ofRegister_eq_ok_iff.mp hk with ⟨rfl, rfl⟩ | ⟨rfl, rfl⟩ | ⟨rfl, rfl⟩ | ⟨rfl, rfl⟩
  all_goals simp [ofImmediate, hz]

theorem exists_ofImmediate_eq_ok (h : code ≤ 3) (imm5 : UInt32) :
    ∃ s, ofImmediate code imm5 = .ok s := by
  by_cases hz : imm5 = 0
  · subst hz
    rcases eq_of_le_three h with rfl | rfl | rfl | rfl <;> exact ⟨_, rfl⟩
  · obtain ⟨k, hk⟩ := exists_ofRegister_eq_ok h
    exact ⟨_, ofImmediate_of_ne_zero hk hz⟩

theorem text_of_ne_rrx {s : Shift} (h : s.kind ≠ .rrx) :
    s.text = s.kind.mnemonic ++ " #" ++ Text.Numeral.decimal s.amount := if_neg h

end Shift

end ShifterOperand
