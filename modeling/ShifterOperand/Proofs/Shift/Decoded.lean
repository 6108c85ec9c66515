import ShifterOperand.Command.Run
import ShifterOperand.Proofs.Shift.Accumulation

/-!
# Shifts from immediate operands

An immediate operand is decoded first and applied then, and each of the two stages has its own limits.
`Shift.immediateRule` is what the operand does in whole numbers, straight from its two fields. Main
statement: the two stages together follow that rule, and an operand with an amount field of five bits
is applied whenever it can be decoded.
-/
namespace ShifterOperand.Shift

/-- Decodes an immediate operand and applies its shift. -/
def applyImmediate (code imm5 : UInt32) (w : Flagged) : Answer Flagged := do
  (← ofImmediate code imm5).apply w

/-- What an immediate operand makes of a word and its carry, or the fault of its fields. -/
def immediateRule (code imm5 : UInt32) (w : Flagged) : Except Fault (ℕ × Bool) :=
  let n := imm5.toNat
  if code = 0 then
    if n ≤ 31 then .ok (Kind.lsl.moved n w.exact) else .error (.amountRange .lsl imm5)
  else if code = 1 then
    if n ≤ 32 then .ok (Kind.lsr.moved (if n = 0 then 32 else n) w.exact)
    else .error (.amountRange .lsr imm5)
  else if code = 2 then
    if n ≤ 32 then .ok (Kind.asr.moved (if n = 0 then 32 else n) w.exact)
    else .error (.amountRange .asr imm5)
  else if code = 3 then
    if n = 0 then .ok (Kind.rrx.moved 1 w.exact)
    else if n ≤ 31 then .ok (Kind.ror.moved n w.exact)
    else .error (.amountRange .ror imm5)
  else .error (.shiftType code)

variable {code imm5 : UInt32} {k : Kind} {s : Shift} (w : Flagged)

/-- The rule of an amount field that is not zero is the one of its kind. -/
theorem immediateRule_of_ne_zero (hk : ofRegister code = .ok k) (hz : imm5 ≠ 0) :
    immediateRule code imm5 w =
      if imm5.toNat ≤ k.maxAmount.toNat then .ok (k.moved imm5.toNat w.exact)
      else .error (.amountRange k imm5) := by
  have hn : imm5.toNat ≠ 0 := fun e => hz (UInt32.toNat_inj.mp e)
  unfold immediateRule
  simp only [if_neg hn]
  rcases ofRegister_eq_ok_iff.mp hk with ⟨rfl, rfl⟩ | ⟨rfl, rfl⟩ | ⟨rfl, rfl⟩ | ⟨rfl, rfl⟩
  all_goals rfl

theorem immediateRule_of_three_lt (h : 3 < code) (imm5 : UInt32) :
    immediateRule code imm5 w = .error (.shiftType code) := by
  rw [immediateRule, if_neg (ne_of_three_lt h (by decide)), if_neg (ne_of_three_lt h (by decide)),
    if_neg (ne_of_three_lt h (by decide)), if_neg (ne_of_three_lt h (by decide))]

theorem applyImmediate_of_decoded (h : ofImmediate code imm5 = .ok s) :
    applyImmediate code imm5 w = s.apply w := by
  simp only [applyImmediate, h, bind, Except.bind]

/-- A shift moves by its amount up to the greatest amount of its kind. -/
theorem apply_eq_moved (k : Kind) (amount : UInt32) :
    ((Shift.mk k amount).apply w).map Flagged.exact =
      if amount.toNat ≤ k.maxAmount.toNat then .ok (k.moved amount.toNat w.exact)
      else .error (.refused (k.amountFault amount)) := by
  by_cases hz : amount = 0
  · subst hz
    rw [apply_zero, UInt32.toNat_zero, if_pos (Nat.zero_le _), Kind.moved_zero]
    rfl
  have hlo : 1 ≤ amount.toNat := Nat.one_le_iff_ne_zero.mpr fun e => hz (UInt32.toNat_inj.mp e)
  by_cases hhi : amount.toNat ≤ k.maxAmount.toNat
  · have ht : k.Takes amount := Kind.takes_iff.mpr ⟨hlo, hhi⟩
    obtain ⟨r, happly, hrule⟩ := exists_apply_eq_ok w ht
    rw [rule_eq_moved w ht] at hrule
    rw [happly, if_pos hhi, Except.ok.inj hrule]
    rfl
  · have ht : ¬ k.Takes amount := fun h => hhi (Kind.takes_iff.mp h).2
    rw [apply_eq_refused w hz ht, if_neg hhi]
    rfl

theorem map_exact_applyImmediate_zero (h : code ≤ 3) :
    (applyImmediate code 0 w).map Flagged.exact =
      (immediateRule code 0 w).mapError Stop.refused := by
  rcases eq_of_le_three h with rfl | rfl | rfl | rfl <;>
    rw [applyImmediate_of_decoded w rfl, apply_eq_moved] <;> rfl

theorem amountFault_of_ofRegister (hk : ofRegister code = .ok k) (amount : UInt32) :
    k.amountFault amount = .amountRange k amount := by
  rcases ofRegister_eq_ok_iff.mp hk with ⟨-, rfl⟩ | ⟨-, rfl⟩ | ⟨-, rfl⟩ | ⟨-, rfl⟩
  all_goals rfl

/-- The decoder and the shifter one after the other follow the rule of the operand. -/
theorem map_exact_applyImmediate (code imm5 : UInt32) :
    (applyImmediate code imm5 w).map Flagged.exact =
      (immediateRule code imm5 w).mapError Stop.refused := by
  by_cases hlt : 3 < code
  · rw [applyImmediate, ofImmediate_of_three_lt hlt, immediateRule_of_three_lt w hlt]
    rfl
  have hle : code ≤ 3 := UInt32.not_lt.mp hlt
  by_cases hz : imm5 = 0
  · rw [hz]
    exact map_exact_applyImmediate_zero w hle
  obtain ⟨k, hk⟩ := exists_ofRegister_eq_ok hle
  rw [applyImmediate_of_decoded w (ofImmediate_of_ne_zero hk hz), apply_eq_moved,
    immediateRule_of_ne_zero w hk hz, amountFault_of_ofRegister hk]
  split <;> rfl

theorem exists_immediateRule_zero (h : code ≤ 3) : ∃ p, immediateRule code 0 w = .ok p := by
  rcases eq_of_le_three h with rfl | rfl | rfl | rfl <;> exact ⟨_, rfl⟩

/-- The fault of an operand is that of its code, or else that of its amount for the kind it names. -/
theorem immediateRule_eq_error {f : Fault} (h : immediateRule code imm5 w = .error f) :
    3 < code ∧ f = .shiftType code ∨
      ∃ k, ofRegister code = .ok k ∧ f = .amountRange k imm5 := by
  by_cases hlt : 3 < code
  · rw [immediateRule_of_three_lt w hlt] at h
    exact .inl ⟨hlt, (Except.error.inj h).symm⟩
  have hle : code ≤ 3 := UInt32.not_lt.mp hlt
  by_cases hz : imm5 = 0
  · obtain ⟨p, hp⟩ := exists_immediateRule_zero w hle
    rw [hz, hp] at h
    cases h
  obtain ⟨k, hk⟩ := exists_ofRegister_eq_ok hle
  rw [immediateRule_of_ne_zero w hk hz] at h
  split at h
  · cases h
  · exact .inr ⟨k, hk, (Except.error.inj h).symm⟩

/-- The shifts to the right take one place more than the others that a code names. -/
theorem le_maxAmount_iff (hk : ofRegister code = .ok k) (n : ℕ) :
    n ≤ k.maxAmount.toNat ↔ n ≤ 31 ∨ n = 32 ∧ (code = 1 ∨ code = 2) := by
  rcases ofRegister_eq_ok_iff.mp hk with ⟨rfl, rfl⟩ | ⟨rfl, rfl⟩ | ⟨rfl, rfl⟩ | ⟨rfl, rfl⟩
  · simp [Kind.maxAmount]
  · simp [Kind.maxAmount]
    omega
  · simp [Kind.maxAmount]
    omega
  · simp [Kind.maxAmount]

theorem exists_immediateRule_iff :
    (∃ p, immediateRule code imm5 w = .ok p) ↔
      code ≤ 3 ∧ (imm5 ≤ 31 ∨ imm5 = 32 ∧ (code = 1 ∨ code = 2)) := by
  by_cases hlt : 3 < code
  · rw [immediateRule_of_three_lt w hlt]
    constructor
    · rintro ⟨p, hp⟩
      cases hp
    · rintro ⟨hle, -⟩
      exact absurd hlt (UInt32.not_lt.mpr hle)
  have hle : code ≤ 3 := UInt32.not_lt.mp hlt
  by_cases hz : imm5 = 0
  · subst hz
    exact iff_of_true (exists_immediateRule_zero w hle) ⟨hle, .inl (by decide)⟩
  obtain ⟨k, hk⟩ := exists_ofRegister_eq_ok hle
  have hfit : (∃ p, immediateRule code imm5 w = .ok p) ↔ imm5.toNat ≤ k.maxAmount.toNat := by
    rw [immediateRule_of_ne_zero w hk hz]
    split
    · next h => exact iff_of_true ⟨_, rfl⟩ h
    · next h => exact iff_of_false (fun ⟨p, hp⟩ => nomatch hp) h
  rw [hfit, le_maxAmount_iff hk, UInt32.le_iff_toNat_le, ← UInt32.toNat_inj (a := imm5)]
  exact (and_iff_right hle).symm

/-- An operand has a result when its rule has one, and it is refused with the fault of its rule. -/
theorem applyImmediate_cases (code imm5 : UInt32) :
    (∃ u, applyImmediate code imm5 w = .ok u ∧ immediateRule code imm5 w = .ok u.exact) ∨
      ∃ f, applyImmediate code imm5 w = .error (.refused f) ∧
        immediateRule code imm5 w = .error f := by
  have h := map_exact_applyImmediate w code imm5
  cases hr : immediateRule code imm5 w with
  | ok p =>
    rw [hr] at h
    cases ha : applyImmediate code imm5 w with
    | ok u =>
      rw [ha] at h
      exact .inl ⟨u, rfl, congrArg Except.ok (Except.ok.inj h).symm⟩
    | error stop =>
      rw [ha] at h
      cases h
  | error f =>
    rw [hr] at h
    cases ha : applyImmediate code imm5 w with
    | ok u =>
      rw [ha] at h
      cases h
    | error stop =>
      rw [ha] at h
      exact .inr ⟨f, congrArg Except.error (Except.error.inj h), rfl⟩

theorem exists_applyImmediate_iff :
    (∃ u, applyImmediate code imm5 w = .ok u) ↔ ∃ p, immediateRule code imm5 w = .ok p := by
  rcases applyImmediate_cases w code imm5 with ⟨u, ha, hr⟩ | ⟨f, ha, hr⟩
  · exact iff_of_true ⟨u, ha⟩ ⟨u.exact, hr⟩
  · rw [ha, hr]
    exact iff_of_false (fun ⟨u, h⟩ => nomatch h) fun ⟨p, h⟩ => nomatch h

theorem applyImmediate_eq_error {stop : Stop} (h : applyImmediate code imm5 w = .error stop) :
    ∃ f, immediateRule code imm5 w = .error f ∧ stop = .refused f := by
  rcases applyImmediate_cases w code imm5 with ⟨u, ha, -⟩ | ⟨f, ha, hr⟩
  · rw [ha] at h
    cases h
  · rw [ha] at h
    exact ⟨f, hr, (Except.error.inj h).symm⟩

/-- An immediate operand is decoded and applied as its two fields say. It fails in the decoder for its
code and in the shifter for its amount, and what the decoder makes of a field of five bits is applied
to every word. -/
theorem applyImmediate_follows_fields (code imm5 : UInt32) (w : Flagged) :
    (applyImmediate code imm5 w).map Flagged.exact =
        (immediateRule code imm5 w).mapError Stop.refused ∧
      ((∃ u, applyImmediate code imm5 w = .ok u) ↔
        code ≤ 3 ∧ (imm5 ≤ 31 ∨ imm5 = 32 ∧ (code = 1 ∨ code = 2))) ∧
      (3 < code → ofImmediate code imm5 = .error (.refused (.shiftType code))) ∧
      (code ≤ 3 → ∃ s, ofImmediate code imm5 = .ok s ∧ ∀ stop, s.apply w = .error stop →
        ∃ k, ofRegister code = .ok k ∧ stop = .refused (.amountRange k imm5)) ∧
      (∀ amount, applyImmediate code imm5 w ≠ .error (.refused (.rrxAmount amount))) ∧
      (imm5 < 32 → code ≤ 3 → ∃ s u,
        (Command.immShift code imm5).run = .ok (.shift s) ∧ s.apply w = .ok u) := by
  have hiff : (∃ u, applyImmediate code imm5 w = .ok u) ↔ _ :=
    (exists_applyImmediate_iff w).trans (exists_immediateRule_iff w)
  refine ⟨map_exact_applyImmediate w code imm5, hiff, fun h => ofImmediate_of_three_lt h imm5,
    fun h => ?_, fun amount h => ?_, fun hfield h => ?_⟩
  · obtain ⟨s, hs⟩ := exists_ofImmediate_eq_ok h imm5
    refine ⟨s, hs, fun stop hstop => ?_⟩
    rw [← applyImmediate_of_decoded w hs] at hstop
    obtain ⟨f, hf, rfl⟩ := applyImmediate_eq_error w hstop
    rcases immediateRule_eq_error w hf with ⟨hlt, -⟩ | ⟨k, hk, rfl⟩
    · exact absurd h (UInt32.not_le.mpr hlt)
    · exact ⟨k, hk, rfl⟩
  · obtain ⟨f, hf, hstop⟩ := applyImmediate_eq_error w h
    rcases immediateRule_eq_error w hf with ⟨-, rfl⟩ | ⟨k, -, rfl⟩
    · cases hstop
    · cases hstop
  · obtain ⟨s, hs⟩ := exists_ofImmediate_eq_ok h imm5
    have hle : imm5 ≤ 31 := by
      rw [UInt32.lt_iff_toNat_lt] at hfield
      rw [UInt32.le_iff_toNat_le]
      exact Nat.le_of_lt_succ hfield
    obtain ⟨u, hu⟩ := hiff.mpr ⟨h, .inl hle⟩
    refine ⟨s, u, ?_, ?_⟩
    · rw [Command.run, if_pos hfield, hs]
      rfl
    · rw [← applyImmediate_of_decoded w hs, hu]

/-- At the edges of the fields: a code of three bits, a rotation by the full width, and an arithmetic
shift to the right by it. -/
theorem applyImmediate_follows_edges :
    ofImmediate 4 40 = .error (.refused (.shiftType 4)) ∧
      (∃ k, ofRegister 3 = .ok k ∧
        Stop.refused (.amountRange .ror 32) = .refused (.amountRange k 32)) ∧
      ∃ s u, (Command.immShift 2 0).run = .ok (.shift s) ∧ s.apply ⟨0x80000000, false⟩ = .ok u := by
  refine ⟨(applyImmediate_follows_fields 4 40 ⟨1, false⟩).2.2.1 (by decide), ?_,
    (applyImmediate_follows_fields 2 0 ⟨0x80000000, false⟩).2.2.2.2.2 (by decide) (by decide)⟩
  obtain ⟨s, hs, hstop⟩ := (applyImmediate_follows_fields 3 32 ⟨1, false⟩).2.2.2.1 (by decide)
  cases hs
  exact hstop _ rfl

end ShifterOperand.Shift
