import ShifterOperand.Proofs.Contract.Twins
import ShifterOperand.Proofs.Immediate.Expansion

/-!
# What the functions ask for

A function that can fail asks one thing of its operands, and there is one way in which it stops when it
is not given that. `Asks` joins the two, and `Entry` lists them for all functions. Main statement:
nothing else ever stops a function, neither an inner check nor word arithmetic, and the functions
without a condition have an answer for all operands.
-/
namespace ShifterOperand

namespace Answer

variable {α β : Type} {x : Answer α} {p q : Prop} {stop : Stop} {f : Fault}

/-- The computation asks for the condition and for nothing else: it has an answer when the condition
holds, and it stops in this way when it does not. -/
structure Asks (x : Answer α) (condition : Prop) (stop : Stop) : Prop where
  answers : condition → ∃ a, x = .ok a
  stops : ¬ condition → x = .error stop

theorem Asks.congr (h : x.Asks p stop) (hpq : p ↔ q) : x.Asks q stop :=
  ⟨fun hq => h.answers (hpq.mpr hq), fun hq => h.stops fun hp => hq (hpq.mp hp)⟩

theorem Asks.eq_error_iff (h : x.Asks p stop) : x = .error stop ↔ ¬ p := by
  refine ⟨fun herror hp => ?_, h.stops⟩
  obtain ⟨a, ha⟩ := h.answers hp
  rw [ha] at herror
  cases herror

/-- What follows asks for nothing more. -/
theorem Asks.bind {g : α → Answer β} (h : x.Asks p stop) (hg : ∀ a, ∃ b, g a = .ok b) :
    (x >>= g).Asks p stop := by
  constructor
  · intro hp
    obtain ⟨a, rfl⟩ := h.answers hp
    exact hg a
  · intro hp
    rw [h.stops hp]
    rfl

theorem Asks.demand (h : x.Asks p (.refused f)) : x.demand.Asks p (.breach f) := by
  constructor
  · intro hp
    obtain ⟨a, rfl⟩ := h.answers hp
    exact ⟨a, rfl⟩
  · intro hp
    rw [h.stops hp, demand_refused]

theorem Asks.ne_overflow (h : x.Asks p stop) (hs : stop ≠ .overflow) : x ≠ .error .overflow := by
  by_cases hp : p
  · obtain ⟨a, rfl⟩ := h.answers hp
    exact nofun
  · rw [h.stops hp]
    exact fun he => hs (Except.error.inj he)

end Answer

namespace Word

variable (value : UInt32)

theorem field_asks (msb lsb : UInt32) :
    (field value msb lsb).Asks (lsb ≤ msb ∧ msb < 32) (.breach (.bitRange msb lsb)) := by
  constructor
  · intro h
    exact ⟨_, field_eq_ok h.2 h.1⟩
  · intro h
    apply field_eq_error
    by_contra hin
    obtain ⟨hmsb, hlsb⟩ := not_or.mp hin
    exact h ⟨UInt32.not_lt.mp hlsb, UInt32.not_le.mp hmsb⟩

theorem bit_asks (pos : UInt32) : (bit value pos).Asks (pos < 32) (.breach (.bitRange pos pos)) :=
  (field_asks value pos pos).congr (and_iff_right (UInt32.le_refl pos))

theorem testBit_asks (pos : UInt32) :
    (testBit value pos).Asks (pos < 32) (.breach (.bitRange pos pos)) :=
  (bit_asks value pos).bind fun _ => ⟨_, rfl⟩

theorem signExtend_asks (width : UInt32) :
    (signExtend value width).Asks (1 ≤ width ∧ width ≤ 32) (.breach (.extensionWidth width)) := by
  constructor
  · intro h
    exact ⟨_, signExtend_eq_ok h.1 h.2⟩
  · intro h
    exact signExtend_eq_error h

end Word

theorem DoubleWord.field_asks (value : UInt64) (msb lsb : UInt32) :
    (field value msb lsb).Asks (lsb ≤ msb ∧ msb < 64 ∧ msb - lsb < 32)
      (.breach (.bitRange msb lsb)) := by
  constructor
  · intro h
    exact ⟨_, field_eq_ok h.2.1 h.1 h.2.2⟩
  · intro h
    unfold field
    split_ifs with hrange
    · rfl
    obtain ⟨hmsb, hlsb⟩ := not_or.mp hrange
    rw [UInt32.not_le] at hmsb
    rw [UInt32.not_lt] at hlsb
    have hspan : 32 ≤ msb - lsb := by
      by_contra hlt
      exact h ⟨hlsb, hmsb, UInt32.not_le.mp hlt⟩
    simp only [Word.sub_eq_ok hlsb, if_pos hspan, bind, Except.bind]

namespace Barrel.Primitive

variable {k : Kind} {full : UInt32 → UInt32 → Answer Flagged}
  {word : UInt32 → UInt32 → Answer UInt32}

theorem amountFault_eq (h : Primitive k full word) (amount : UInt32) :
    k.amountFault amount = .amountRange k amount := by
  cases h <;> rfl

/-- Once the amount has been checked, no check further inside stops the function. -/
theorem asks (h : Primitive k full word) (value amount : UInt32) :
    (full value amount).Asks (k.Takes amount) (.breach (.amountRange k amount)) := by
  constructor
  · intro ht
    cases h with
    | lsl => exact ⟨_, lsl_eq_ok ht⟩
    | lsr => exact ⟨_, lsr_eq_ok ht⟩
    | asr => exact ⟨_, asr_eq_ok ht⟩
    | ror => exact ⟨_, ror_eq_ok ht⟩
  · intro ht
    rw [h.eq_breach ht, h.amountFault_eq]

theorem word_asks (h : Primitive k full word) (value amount : UInt32) :
    (word value amount).Asks (amount = 0 ∨ k.Takes amount) (.breach (.amountRange k amount)) := by
  rw [h.word_eq]
  split_ifs with hz
  · exact ⟨fun _ => ⟨value, rfl⟩, fun hn => absurd (.inl hz) hn⟩
  · exact ((h.asks value amount).bind fun r => ⟨r.value, rfl⟩).congr (or_iff_right hz).symm

end Barrel.Primitive

namespace Shift

theorem ofImmediate_asks (code imm5 : UInt32) :
    (ofImmediate code imm5).Asks (code ≤ 3) (.refused (.shiftType code)) :=
  ⟨fun h => exists_ofImmediate_eq_ok h imm5,
    fun h => ofImmediate_of_three_lt (UInt32.not_le.mp h) imm5⟩

theorem ofRegister_asks (code : UInt32) :
    (ofRegister code).Asks (code ≤ 3) (.refused (.shiftType code)) :=
  ⟨exists_ofRegister_eq_ok, fun h => ofRegister_of_three_lt (UInt32.not_le.mp h)⟩

theorem apply_asks (s : Shift) (w : Flagged) :
    (s.apply w).Asks (s.amount = 0 ∨ s.kind.Takes s.amount)
      (.refused (s.kind.amountFault s.amount)) := by
  constructor
  · intro h
    rcases h with hz | ht
    · exact ⟨w, if_pos hz⟩
    · obtain ⟨r, hr, -⟩ := exists_apply_eq_ok w ht
      exact ⟨r, hr⟩
  · intro h
    obtain ⟨hz, ht⟩ := not_or.mp h
    exact apply_eq_refused w hz ht

/-- Once the amount has been checked, no check of the function that it goes to stops the shift. -/
theorem exists_dispatch_eq_ok {s : Shift} (w : Flagged) (h : s.kind.Takes s.amount) :
    ∃ r, s.dispatch w = .ok r := by
  obtain ⟨r, hr, -⟩ := exists_apply_eq_ok w h
  exact ⟨r, (apply_eq_dispatch w h).symm.trans hr⟩

end Shift

namespace Contract

/-- The functions that can fail, with what each of them asks for and how it stops. Those that examine
their operands hand the fault back. -/
inductive Entry : {α : Type} → Answer α → Prop → Stop → Prop
  | field (value msb lsb : UInt32) :
      Entry (Word.field value msb lsb) (lsb ≤ msb ∧ msb < 32) (.breach (.bitRange msb lsb))
  | bit (value pos : UInt32) : Entry (Word.bit value pos) (pos < 32) (.breach (.bitRange pos pos))
  | testBit (value pos : UInt32) :
      Entry (Word.testBit value pos) (pos < 32) (.breach (.bitRange pos pos))
  | wideField (value : UInt64) (msb lsb : UInt32) :
      Entry (DoubleWord.field value msb lsb) (lsb ≤ msb ∧ msb < 64 ∧ msb - lsb < 32)
        (.breach (.bitRange msb lsb))
  | signExtend (value width : UInt32) :
      Entry (Word.signExtend value width) (1 ≤ width ∧ width ≤ 32)
        (.breach (.extensionWidth width))
  | primitive {k : Kind} {full : UInt32 → UInt32 → Answer Flagged}
      {word : UInt32 → UInt32 → Answer UInt32} (h : Barrel.Primitive k full word)
      (value amount : UInt32) :
      Entry (full value amount) (k.Takes amount) (.breach (.amountRange k amount))
  | primitiveWord {k : Kind} {full : UInt32 → UInt32 → Answer Flagged}
      {word : UInt32 → UInt32 → Answer UInt32} (h : Barrel.Primitive k full word)
      (value amount : UInt32) :
      Entry (word value amount) (amount = 0 ∨ k.Takes amount) (.breach (.amountRange k amount))
  | decodeImmediate (code imm5 : UInt32) :
      Entry (Contract.decodeImmediate code imm5) (code ≤ 3) (.breach (.shiftType code))
  | decodeAmount (code imm5 : UInt32) :
      Entry (Contract.decodeAmount code imm5) (code ≤ 3) (.breach (.shiftType code))
  | decodeRegister (code : UInt32) :
      Entry (Contract.decodeRegister code) (code ≤ 3) (.breach (.shiftType code))
  | apply (s : Shift) (w : Flagged) :
      Entry (Contract.apply s w) (s.amount = 0 ∨ s.kind.Takes s.amount)
        (.breach (s.kind.amountFault s.amount))
  | applyWord (s : Shift) (w : Flagged) :
      Entry (Contract.applyWord s w) (s.amount = 0 ∨ s.kind.Takes s.amount)
        (.breach (s.kind.amountFault s.amount))
  | examineImmediate (code imm5 : UInt32) :
      Entry (Shift.ofImmediate code imm5) (code ≤ 3) (.refused (.shiftType code))
  | examineRegister (code : UInt32) :
      Entry (Shift.ofRegister code) (code ≤ 3) (.refused (.shiftType code))
  | examineShift (s : Shift) (w : Flagged) :
      Entry (s.apply w) (s.amount = 0 ∨ s.kind.Takes s.amount)
        (.refused (s.kind.amountFault s.amount))

/-- The functions that ask for nothing. -/
inductive Free : {α : Type} → Answer α → Prop
  | expandA32 (word : UInt32) (carry : Bool) : Free (Immediate.expandA32 word carry)
  | constantA32 (word : UInt32) : Free (Immediate.constantA32 word)
  | expandT32 (imm12 : UInt32) (carry : Bool) : Free (Immediate.expandT32 imm12 carry)
  | expandT32Word (word : UInt32) (carry : Bool) : Free (Immediate.expandT32Word word carry)
  | constantT32Word (word : UInt32) : Free (Immediate.constantT32Word word)
  | gatherT32 (word : UInt32) : Free (Immediate.gatherT32 word)
  | scaledOffset (word : UInt32) : Free (Immediate.scaledOffset word)
  | rrx (value : UInt32) (carry : Bool) : Free (Barrel.rrx value carry)
  | rrxWord (value : UInt32) (carry : Bool) : Free (Barrel.rrxWord value carry)

variable {α : Type} {x : Answer α} {condition : Prop} {stop : Stop}

theorem Entry.asks (h : Entry x condition stop) : x.Asks condition stop := by
  cases h with
  | field value msb lsb => exact Word.field_asks value msb lsb
  | bit value pos => exact Word.bit_asks value pos
  | testBit value pos => exact Word.testBit_asks value pos
  | wideField value msb lsb => exact DoubleWord.field_asks value msb lsb
  | signExtend value width => exact Word.signExtend_asks value width
  | primitive h value amount => exact h.asks value amount
  | primitiveWord h value amount => exact h.word_asks value amount
  | decodeImmediate code imm5 => exact (Shift.ofImmediate_asks code imm5).demand
  | decodeAmount code imm5 =>
    exact (Shift.ofImmediate_asks code imm5).demand.bind fun s => ⟨s.amount, rfl⟩
  | decodeRegister code => exact (Shift.ofRegister_asks code).demand
  | apply s w => exact (Shift.apply_asks s w).demand
  | applyWord s w => exact (Shift.apply_asks s w).demand.bind fun r => ⟨r.value, rfl⟩
  | examineImmediate code imm5 => exact Shift.ofImmediate_asks code imm5
  | examineRegister code => exact Shift.ofRegister_asks code
  | examineShift s w => exact Shift.apply_asks s w

/-- What stops a function is a fault of its operands. -/
theorem Entry.exists_fault (h : Entry x condition stop) :
    ∃ f, stop = .refused f ∨ stop = .breach f := by
  cases h <;> first | exact ⟨_, .inr rfl⟩ | exact ⟨_, .inl rfl⟩

theorem Free.exists_eq_ok (h : Free x) : ∃ a, x = .ok a := by
  cases h with
  | expandA32 word carry => exact ⟨_, Immediate.expandA32_eq_ok word carry⟩
  | constantA32 word =>
    rw [Immediate.constantA32, Immediate.expandA32_eq_ok]
    exact ⟨_, rfl⟩
  | expandT32 imm12 carry => exact ⟨_, Immediate.expandT32_eq_ok imm12 carry⟩
  | expandT32Word word carry => exact Immediate.exists_expandT32Word_eq_ok word carry
  | constantT32Word word =>
    obtain ⟨w, hw⟩ := Immediate.exists_expandT32Word_eq_ok word false
    rw [Immediate.constantT32Word, hw]
    exact ⟨w.value, rfl⟩
  | gatherT32 word => exact ⟨_, Immediate.gatherT32_eq_ok word⟩
  | scaledOffset word => exact ⟨_, Immediate.scaledOffset_eq_ok word⟩
  | rrx value carry => exact ⟨_, Barrel.rrx_eq_ok carry⟩
  | rrxWord value carry =>
    rw [Barrel.rrxWord, Barrel.rrx_eq_ok]
    exact ⟨_, rfl⟩

/-- A function has an answer exactly when it is given what it asks for, and it stops with the fault of
its own operands otherwise. Behind the check of an amount nothing stops a shift any more, and word
arithmetic never leaves the word. -/
theorem functions_stop_at_their_condition :
    (∀ (α : Type) (x : Answer α) condition stop, Entry x condition stop →
      (condition → ∃ a, x = .ok a) ∧ (¬ condition → x = .error stop) ∧
        (∃ f, stop = .refused f ∨ stop = .breach f) ∧ x ≠ .error .overflow) ∧
      (∀ (α : Type) (x : Answer α), Free x → ∃ a, x = .ok a) ∧
      (∀ s w, (Shift.apply s w).Examined) ∧
      (∀ code imm5, (Shift.ofImmediate code imm5).Examined) ∧
      (∀ code, (Shift.ofRegister code).Examined) ∧
      (∀ k full word, Barrel.Primitive k full word → ∀ value amount,
        Barrel.require k amount = .ok () → ∃ r, full value amount = .ok r) ∧
      ∀ (s : Shift) w, s.kind.Takes s.amount → ∃ r, s.dispatch w = .ok r := by
  refine ⟨fun α x condition stop h => ?_, fun α x h => h.exists_eq_ok, Shift.examined_apply,
    Shift.examined_ofImmediate, Shift.examined_ofRegister, fun k full word h value amount hr => ?_,
    fun s w h => Shift.exists_dispatch_eq_ok w h⟩
  · obtain ⟨f, hf⟩ := h.exists_fault
    refine ⟨h.asks.answers, h.asks.stops, ⟨f, hf⟩, h.asks.ne_overflow ?_⟩
    rintro rfl
    rcases hf with hf | hf <;> cases hf
  · refine (h.asks value amount).answers ?_
    by_contra ht
    rw [Barrel.require_eq_error ht] at hr
    cases hr

/-- A field that would begin above its end, and a shift by the full width. -/
theorem functions_stop_at_edges :
    Word.field 0xFFFFFFFF 3 4 = .error (.breach (.bitRange 3 4)) ∧
      ∃ r, Barrel.lsr 0xFFFFFFFF 32 = .ok r := by
  have h := functions_stop_at_their_condition
  exact ⟨(h.1 _ _ _ _ (.field 0xFFFFFFFF 3 4)).2.1 (by decide),
    h.2.2.2.2.2.1 _ _ _ .lsr 0xFFFFFFFF 32 rfl⟩

end Contract

end ShifterOperand
