import ShifterOperand.Machine
import ShifterOperand.Proofs.Contract.Conditions

/-!
# Rejected steps

Some steps are rejected, and a rejected step changes nothing. `Step.flaw?` reads off the fields of a
step what stops it. Main statement: a run rejects the steps that have a flaw, whatever word it starts
from, and it answers the others as if the rejected ones had never been in the list.
-/
namespace ShifterOperand

namespace Answer

variable {α β : Type} {x : Answer α} {p : Prop} {stop : Stop}

/-- What stopped the computation, if anything did. -/
def stop? : Answer α → Option Stop
  | .ok _ => none
  | .error stop => some stop

theorem Asks.stop?_eq [Decidable p] (h : x.Asks p stop) :
    x.stop? = if p then none else some stop := by
  split_ifs with hp
  · obtain ⟨a, rfl⟩ := h.answers hp
    rfl
  · rw [h.stops hp]
    rfl

theorem Asks.stop?_return [Decidable p] (h : x.Asks p stop) (g : α → β) :
    Answer.stop? (do return g (← x)) = if p then none else some stop :=
  (h.bind fun a => ⟨g a, rfl⟩).stop?_eq

end Answer

namespace Machine

/-- The fault of an amount for a shift of this kind. A shift by nothing has none. -/
def amountFlaw? (k : Kind) (amount : UInt32) : Option Fault :=
  if amount = 0 ∨ k.Takes amount then none else some (k.amountFault amount)

/-- The fault of an operand with a type code. It is the same for an immediate amount and for one that
a register holds. -/
def operandFlaw? (code amount : UInt32) : Option Fault :=
  if code = 0 then amountFlaw? .lsl amount
  else if code = 1 then amountFlaw? .lsr amount
  else if code = 2 then amountFlaw? .asr amount
  else if code = 3 then amountFlaw? .ror amount
  else some (.shiftType code)

/-- What stops the step, told from the step alone. -/
def Step.flaw? : Step → Option Stop
  | shift s => (amountFlaw? s.kind s.amount).map .refused
  | immediate code imm5 => (operandFlaw? code imm5).map .breach
  | register code amount => (operandFlaw? code amount).map .breach
  | signExtend width =>
    if 1 ≤ width ∧ width ≤ 32 then none else some (.breach (.extensionWidth width))
  | field msb lsb =>
    if lsb ≤ msb ∧ msb < 32 then none else some (.breach (.bitRange msb lsb))
  | test pos => if pos < 32 then none else some (.breach (.bitRange pos pos))
  | expandA32 | expandT32Word | expandT32 | gatherT32 | scaledOffset => none

def Step.accepted (st : Step) : Bool := st.flaw?.isNone

variable {code amount : UInt32} {k : Kind} (w : Flagged)

theorem operandFlaw?_of_three_lt (h : 3 < code) (amount : UInt32) :
    operandFlaw? code amount = some (.shiftType code) := by
  rw [operandFlaw?, if_neg (Shift.ne_of_three_lt h (by decide)),
    if_neg (Shift.ne_of_three_lt h (by decide)), if_neg (Shift.ne_of_three_lt h (by decide)),
    if_neg (Shift.ne_of_three_lt h (by decide))]

theorem operandFlaw?_of_kind (h : Shift.ofRegister code = .ok k) (amount : UInt32) :
    operandFlaw? code amount = amountFlaw? k amount := by
  rcases Shift.ofRegister_eq_ok_iff.mp h with ⟨rfl, rfl⟩ | ⟨rfl, rfl⟩ | ⟨rfl, rfl⟩ | ⟨rfl, rfl⟩
  all_goals rfl

theorem stop?_shift (s : Shift) :
    (s.apply w).stop? = (amountFlaw? s.kind s.amount).map .refused := by
  rw [(Shift.apply_asks s w).stop?_eq, amountFlaw?]
  split_ifs <;> rfl

theorem stop?_apply (s : Shift) :
    (Contract.apply s w).stop? = (amountFlaw? s.kind s.amount).map .breach := by
  rw [Contract.apply, (Shift.apply_asks s w).demand.stop?_eq, amountFlaw?]
  split_ifs <;> rfl

theorem stop?_register (code amount : UInt32) :
    (Step.next w (.register code amount)).stop? = (operandFlaw? code amount).map .breach := by
  by_cases hlt : 3 < code
  · rw [operandFlaw?_of_three_lt hlt, Step.next, Contract.decodeRegister,
      Shift.ofRegister_of_three_lt hlt]
    rfl
  obtain ⟨k, hk⟩ := Shift.exists_ofRegister_eq_ok (UInt32.not_lt.mp hlt)
  rw [operandFlaw?_of_kind hk, Step.next, Contract.decodeRegister, hk]
  exact stop?_apply w ⟨k, amount⟩

/-- An amount field of zero gives a shift that is applied to every word. -/
theorem takes_ofImmediate_zero (h : code ≤ 3) :
    ∃ s, Shift.ofImmediate code 0 = .ok s ∧ amountFlaw? s.kind s.amount = none := by
  rcases Shift.eq_of_le_three h with rfl | rfl | rfl | rfl
  all_goals exact ⟨_, rfl, by decide⟩

theorem stop?_immediate (code imm5 : UInt32) :
    (Step.next w (.immediate code imm5)).stop? = (operandFlaw? code imm5).map .breach := by
  by_cases hlt : 3 < code
  · rw [operandFlaw?_of_three_lt hlt, Step.next, Contract.decodeImmediate,
      Shift.ofImmediate_of_three_lt hlt]
    rfl
  have hle : code ≤ 3 := UInt32.not_lt.mp hlt
  obtain ⟨k, hk⟩ := Shift.exists_ofRegister_eq_ok hle
  rw [operandFlaw?_of_kind hk, Step.next, Contract.decodeImmediate]
  by_cases hz : imm5 = 0
  · subst hz
    obtain ⟨s, hs, hflaw⟩ := takes_ofImmediate_zero hle
    rw [hs]
    refine (stop?_apply w s).trans ?_
    rw [hflaw]
    rfl
  · rw [Shift.ofImmediate_of_ne_zero hk hz]
    exact stop?_apply w ⟨k, imm5⟩

/-- A step fails by its own fields, on every word in the same way. -/
theorem stop?_next (st : Step) : (st.next w).stop? = st.flaw? := by
  cases st with
  | shift s => exact stop?_shift w s
  | immediate code imm5 => exact stop?_immediate w code imm5
  | register code amount => exact stop?_register w code amount
  | expandA32 => rw [Step.next, Immediate.expandA32_eq_ok]; rfl
  | expandT32Word =>
    obtain ⟨u, hu⟩ := Immediate.exists_expandT32Word_eq_ok w.value w.carry
    rw [Step.next, hu]
    rfl
  | expandT32 => rw [Step.next, Immediate.expandT32_eq_ok]; rfl
  | gatherT32 => rw [Step.next, Immediate.gatherT32_eq_ok]; rfl
  | scaledOffset => rw [Step.next, Immediate.scaledOffset_eq_ok]; rfl
  | signExtend width =>
    exact (Word.signExtend_asks w.value width).stop?_return (Flagged.mk · w.carry)
  | field msb lsb =>
    exact (Word.field_asks w.value msb lsb).stop?_return (Flagged.mk · w.carry)
  | test pos =>
    exact (Word.testBit_asks w.value pos).stop?_return (Flagged.mk w.value)

theorem next_cases (st : Step) :
    (st.accepted = true ∧ ∃ u, st.next w = .ok u) ∨
      (st.accepted = false ∧ ∃ stop, st.next w = .error stop) := by
  rw [Step.accepted, ← stop?_next w st]
  cases st.next w with
  | ok u => exact .inl ⟨rfl, u, rfl⟩
  | error stop => exact .inr ⟨rfl, stop, rfl⟩

theorem map_stop?_run (steps : List Step) :
    (run w steps).map Answer.stop? = steps.map Step.flaw? := by
  induction steps generalizing w with
  | nil => rfl
  | cons st rest ih => rw [run, List.map_cons, List.map_cons, stop?_next, ih]

/-- The answers that are words are those of the run without the rejected steps. -/
theorem filter_run (steps : List Step) :
    (run w steps).filter Except.isOk = run w (steps.filter Step.accepted) := by
  induction steps generalizing w with
  | nil => rfl
  | cons st rest ih =>
    rcases next_cases w st with ⟨ha, u, hu⟩ | ⟨ha, stop, hstop⟩
    · rw [List.filter_cons_of_pos ha, run, run, hu, List.filter_cons_of_pos rfl, ih]
    · have hfails : ¬ Except.isOk (Except.error stop : Answer Flagged) = true :=
        Bool.false_ne_true
      rw [List.filter_cons_of_neg (by simp [ha]), run, hstop, List.filter_cons_of_neg hfails,
        settle_error, ih]

theorem final_filter (steps : List Step) : final w (steps.filter Step.accepted) = final w steps := by
  induction steps generalizing w with
  | nil => rfl
  | cons st rest ih =>
    rcases next_cases w st with ⟨ha, u, hu⟩ | ⟨ha, stop, hstop⟩
    · rw [List.filter_cons_of_pos ha, final_cons, final_cons, ih]
    · rw [List.filter_cons_of_neg (by simp [ha]), ih, final_cons, hstop, settle_error]

/-- Two runs of the same steps reject the same ones, each for the same reason, and the reason can be
told from the step. A step that is accepted hands on its answer, and what is rejected leaves no trace:
the other steps answer as in the run without it. The steps without fields of their own never fail. -/
theorem rejections_follow_steps (steps : List Step) :
    (∀ w, (run w steps).map Answer.stop? = steps.map Step.flaw?) ∧
      (∀ w u, (run w steps).map Answer.stop? = (run u steps).map Answer.stop?) ∧
      (∀ w (st : Step) u, st.next w = .ok u → settle w (st.next w) = u) ∧
      (∀ w (st : Step) stop, st.next w = .error stop → settle w (st.next w) = w) ∧
      (∀ w, (run w steps).filter Except.isOk = run w (steps.filter Step.accepted) ∧
        final w steps = final w (steps.filter Step.accepted)) ∧
      ∀ w, ∀ st ∈ [Step.expandA32, .expandT32Word, .expandT32, .gatherT32, .scaledOffset],
        ∃ u, st.next w = .ok u := by
  refine ⟨fun w => map_stop?_run w steps, fun w u => ?_, fun w st u h => ?_, fun w st stop h => ?_,
    fun w => ⟨filter_run w steps, (final_filter w steps).symm⟩, fun w st hst => ?_⟩
  · rw [map_stop?_run, map_stop?_run]
  · rw [h, settle_ok]
  · rw [h, settle_error]
  · rcases next_cases w st with ⟨-, h⟩ | ⟨ha, -⟩
    · exact h
    · simp only [List.mem_cons, List.not_mem_nil, or_false] at hst
      rcases hst with rfl | rfl | rfl | rfl | rfl <;> cases ha

/-- A field whose ends are in the wrong order, a rotation with extend by two places and a code of three
bits, with two steps between them that succeed. -/
theorem rejections_follow_mixed_steps :
    (run ⟨0x4FF, false⟩ [.field 3 4, .expandA32, .shift ⟨.rrx, 2⟩, .immediate 7 0, .test 31]).filter
        Except.isOk = run ⟨0x4FF, false⟩ [.expandA32, .test 31] ∧
      settle ⟨0x4FF, false⟩ (Step.next ⟨0x4FF, false⟩ .expandA32) = ⟨0xFF000000, true⟩ ∧
      settle ⟨0x4FF, false⟩ (Step.next ⟨0x4FF, false⟩ (.field 3 4)) = ⟨0x4FF, false⟩ ∧
      ∃ u, Step.next ⟨0x4FF, false⟩ .expandA32 = .ok u := by
  have h := rejections_follow_steps
    [.field 3 4, .expandA32, .shift ⟨.rrx, 2⟩, .immediate 7 0, .test 31]
  obtain ⟨-, -, haccepted, hrejected, hfilter, hfree⟩ := h
  exact ⟨(hfilter _).1, haccepted _ .expandA32 _ rfl, hrejected _ _ (.breach (.bitRange 3 4)) rfl,
    hfree _ _ (by simp)⟩

end Machine

end ShifterOperand
