import ShifterOperand.Contract
import ShifterOperand.Proofs.Shift.Exact
import ShifterOperand.Proofs.Text.Message

/-!
# Twin entry points

Most of the shifter can be reached in two ways: one examines the operands and hands a fault back, the
other relies on them and stops with the text of the fault. The functions of the single kinds have a
check of their own before that of the dispatcher. Main statement: the ways agree on every operand, on
results and on texts, and the text tells the fault.
-/
namespace ShifterOperand

namespace Answer

variable {α β : Type}

/-- The computation hands nothing back and stops with this text. -/
def StopsWith (x : Answer α) (text : String) : Prop :=
  ∃ stop, x = .error stop ∧ (∀ f, stop ≠ .refused f) ∧ stop.message = text

/-- An entry point that relies on its operands beside the twin that examines them: it has the results
of the twin, as far as `view` shows them, and it stops with the texts of the faults that the twin
refuses. The twin has a result or a fault to hand back for all operands. -/
structure Mirrors (strict : Answer β) (twin : Answer α) (view : α → β) : Prop where
  returns_iff : ∀ b, strict = .ok b ↔ ∃ a, twin = .ok a ∧ view a = b
  stops_iff : ∀ f : Fault, strict.StopsWith f.message ↔ twin = .error (.refused f)
  examined : twin.Examined

theorem stopsWith_breach_iff {f g : Fault} :
    StopsWith (.error (.breach f) : Answer α) g.message ↔ f = g := by
  constructor
  · rintro ⟨stop, hstop, -, htext⟩
    cases hstop
    exact Fault.message_inj htext
  · rintro rfl
    exact ⟨.breach f, rfl, fun _ h => (by cases h), rfl⟩

/-- To demand what the twin examines is to mirror it. -/
theorem mirrors_demand {twin : Answer α} (h : twin.Examined) (view : α → β) :
    Mirrors (twin.demand.map view) twin view := by
  rcases h with ⟨a, rfl⟩ | ⟨f, rfl⟩
  · refine ⟨fun b => ?_, fun g => ?_, .inl ⟨a, rfl⟩⟩
    · constructor
      · intro h
        exact ⟨a, rfl, Except.ok.inj h⟩
      · rintro ⟨a', ha, rfl⟩
        cases ha
        rfl
    · constructor
      · rintro ⟨stop, h, -⟩
        cases h
      · intro h
        cases h
  · refine ⟨fun b => ?_, fun g => ?_, .inr ⟨f, rfl⟩⟩
    · constructor
      · intro h
        cases h
      · rintro ⟨a, ha, -⟩
        cases ha
    · refine stopsWith_breach_iff.trans ?_
      constructor
      · rintro rfl
        rfl
      · intro h
        cases h
        rfl

theorem mirrors_demand_id {twin : Answer α} (h : twin.Examined) : Mirrors twin.demand twin id := by
  have hmap : twin.demand.map id = twin.demand := congrFun Except.map_id _
  rw [← hmap]
  exact mirrors_demand h id

theorem mirrors_demand_bind {twin : Answer α} (h : twin.Examined) (view : α → β) :
    Mirrors (do return view (← twin.demand)) twin view := by
  have hmap : (do return view (← twin.demand)) = twin.demand.map view := by
    cases twin.demand <;> rfl
  rw [hmap]
  exact mirrors_demand h view

end Answer

namespace Barrel

/-- The functions of the kinds that move by an amount, with the carry and without it. -/
inductive Primitive : Kind → (UInt32 → UInt32 → Answer Flagged) →
    (UInt32 → UInt32 → Answer UInt32) → Prop
  | lsl : Primitive .lsl lsl lslWord
  | lsr : Primitive .lsr lsr lsrWord
  | asr : Primitive .asr asr asrWord
  | ror : Primitive .ror ror rorWord

namespace Primitive

variable {k : Kind} {full : UInt32 → UInt32 → Answer Flagged}
  {word : UInt32 → UInt32 → Answer UInt32}

theorem dispatch_eq (h : Primitive k full word) (value amount : UInt32) (carry : Bool) :
    (Shift.mk k amount).dispatch ⟨value, carry⟩ = full value amount := by
  cases h <;> rfl

theorem word_eq (h : Primitive k full word) (value amount : UInt32) :
    word value amount = if amount = 0 then .ok value else dropCarry (full value amount) := by
  cases h <;> rfl

/-- The check of the function itself stops it at an amount that its kind does not take. -/
theorem eq_breach (h : Primitive k full word) {amount : UInt32} (ht : ¬ k.Takes amount)
    (value : UInt32) : full value amount = .error (.breach (k.amountFault amount)) := by
  cases h with
  | lsl => rw [Barrel.lsl, require_eq_error ht]; rfl
  | lsr => rw [Barrel.lsr, require_eq_error ht]; rfl
  | asr => rw [Barrel.asr, require_eq_error ht]; rfl
  | ror => rw [Barrel.ror, require_eq_error ht]; rfl

theorem zero_eq_breach (h : Primitive k full word) (value : UInt32) :
    full value 0 = .error (.breach (.amountRange k 0)) := by
  have ht : ¬ k.Takes 0 := fun ht => absurd (Kind.takes_iff.mp ht).1 (by decide)
  rw [h.eq_breach ht]
  cases h <;> rfl

/-- The check of the function and that of the dispatcher come to the same. -/
theorem eq_apply (h : Primitive k full word) {amount : UInt32} (hz : amount ≠ 0) (value : UInt32)
    (carry : Bool) : full value amount = Contract.apply ⟨k, amount⟩ ⟨value, carry⟩ := by
  by_cases ht : k.Takes amount
  · obtain ⟨r, hr, -⟩ := Shift.exists_apply_eq_ok ⟨value, carry⟩ ht
    have happly := Shift.apply_eq_dispatch (s := ⟨k, amount⟩) ⟨value, carry⟩ ht
    rw [h.dispatch_eq] at happly
    rw [Contract.apply, hr, Answer.demand_ok, ← happly, hr]
  · rw [h.eq_breach ht, Contract.apply, Shift.apply_eq_refused _ hz ht, Answer.demand_refused]

theorem word_eq_applyWord (h : Primitive k full word) (value amount : UInt32) (carry : Bool) :
    word value amount = Contract.applyWord ⟨k, amount⟩ ⟨value, carry⟩ := by
  rw [h.word_eq]
  split
  · next hz =>
    subst hz
    rfl
  · next hz =>
    rw [h.eq_apply hz value carry]
    rfl

end Primitive

theorem rrx_eq_apply (w : Flagged) : rrx w.value w.carry = Contract.apply ⟨.rrx, 1⟩ w := by
  have happly : (Shift.mk .rrx 1).apply w = rrx w.value w.carry := rfl
  obtain ⟨r, hr, -⟩ := rrx_eq_exact w.value w.carry
  rw [Contract.apply, happly, hr, Answer.demand_ok]

theorem rrxWord_eq_applyWord (w : Flagged) :
    rrxWord w.value w.carry = Contract.applyWord ⟨.rrx, 1⟩ w := by
  rw [rrxWord, rrx_eq_apply]
  rfl

end Barrel

namespace Contract

/-- The entry points for valid operands mirror the examining ones, those of the single kinds agree
with the dispatcher, and no two faults stop with the same text. -/
theorem twins_agree :
    (∀ code imm5, (decodeImmediate code imm5).Mirrors (Shift.ofImmediate code imm5) id) ∧
      (∀ code imm5, (decodeAmount code imm5).Mirrors (Shift.ofImmediate code imm5) Shift.amount) ∧
      (∀ code, (decodeRegister code).Mirrors (Shift.ofRegister code) id) ∧
      (∀ s w, (apply s w).Mirrors (s.apply w) id) ∧
      (∀ s w, (applyWord s w).Mirrors (s.apply w) Flagged.value) ∧
      (∀ k full word, Barrel.Primitive k full word → ∀ value amount carry,
        (amount ≠ 0 → full value amount = apply ⟨k, amount⟩ ⟨value, carry⟩) ∧
          full value 0 = .error (.breach (.amountRange k 0)) ∧
          word value amount = applyWord ⟨k, amount⟩ ⟨value, carry⟩) ∧
      (∀ w : Flagged, Barrel.rrx w.value w.carry = apply ⟨.rrx, 1⟩ w ∧
        Barrel.rrxWord w.value w.carry = applyWord ⟨.rrx, 1⟩ w) ∧
      Function.Injective Fault.message := by
  refine ⟨fun code imm5 => ?_, fun code imm5 => ?_, fun code => ?_, fun s w => ?_, fun s w => ?_,
    fun k full word h value amount carry => ?_, fun w => ?_, fun f g => Fault.message_inj⟩
  · exact Answer.mirrors_demand_id (Shift.examined_ofImmediate code imm5)
  · exact Answer.mirrors_demand_bind (Shift.examined_ofImmediate code imm5) Shift.amount
  · exact Answer.mirrors_demand_id (Shift.examined_ofRegister code)
  · exact Answer.mirrors_demand_id (Shift.examined_apply s w)
  · exact Answer.mirrors_demand_bind (Shift.examined_apply s w) Flagged.value
  · exact ⟨fun hz => h.eq_apply hz value carry, h.zero_eq_breach value,
      h.word_eq_applyWord value amount carry⟩
  · exact ⟨Barrel.rrx_eq_apply w, Barrel.rrxWord_eq_applyWord w⟩

/-- An amount past the greatest, checked by the function of its kind and by the dispatcher. -/
theorem twins_agree_asr :
    Barrel.asr 0x80000000 40 = apply ⟨.asr, 40⟩ ⟨0x80000000, true⟩ ∧
      Barrel.asr 0x80000000 0 = .error (.breach (.amountRange .asr 0)) ∧
      Barrel.asrWord 0x80000000 0 = applyWord ⟨.asr, 0⟩ ⟨0x80000000, true⟩ := by
  have h := twins_agree.2.2.2.2.2.1 .asr Barrel.asr Barrel.asrWord .asr 0x80000000
  exact ⟨(h 40 true).1 (by decide), (h 0 true).2.1, (h 0 true).2.2⟩

end Contract

end ShifterOperand
