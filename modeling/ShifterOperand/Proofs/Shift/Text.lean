import ShifterOperand.Proofs.Text.Written
import ShifterOperand.Shift.Operand

/-!
# Texts of shifts

The text of a shift names its kind and its amount, but that of a rotation with extend leaves the amount
out. Main statement: nothing else is lost in a text. As a decoded operand rotates with extend by one
place only, its text even tells the two fields that it was decoded from, except that there are two ways
to write a shift to the right by the full width.
-/
namespace ShifterOperand

namespace Kind

theorem length_mnemonic (k : Kind) : k.mnemonic.toList.length = 3 := by
  cases k <;> rfl

/-- The code of the operands that shift in this way. A rotation with extend is coded as a rotation. -/
def typeCode : Kind → UInt32
  | lsl => 0
  | lsr => 1
  | asr => 2
  | ror => 3
  | rrx => 3

end Kind

namespace Shift

variable {s t : Shift} {code imm5 code' imm5' : UInt32}

theorem take_text (s : Shift) : s.text.toList.take 3 = s.kind.mnemonic.toList := by
  unfold text
  split
  · exact List.take_of_length_le s.kind.length_mnemonic.le
  · rw [String.toList_append, String.toList_append, List.append_assoc]
    exact List.take_left' s.kind.length_mnemonic

theorem kind_eq_of_text_eq (h : s.text = t.text) : s.kind = t.kind := by
  apply Kind.mnemonic_inj
  apply String.toList_injective
  rw [← take_text, ← take_text, h]

/-- Two shifts with one text differ at most in the amount of a rotation with extend. -/
theorem text_eq_iff : s.text = t.text ↔ s = t ∨ s.kind = .rrx ∧ t.kind = .rrx := by
  constructor
  · intro h
    have hkind := kind_eq_of_text_eq h
    by_cases hrrx : s.kind = .rrx
    · exact .inr ⟨hrrx, hkind ▸ hrrx⟩
    · rw [text_of_ne_rrx hrrx, text_of_ne_rrx (hkind ▸ hrrx), hkind] at h
      exact .inl (Shift.ext hkind (Text.Numeral.append_decimal_inj h))
  · rintro (rfl | ⟨hs, ht⟩)
    · rfl
    · simp [text, hs, ht]

theorem le_three_of_ofImmediate (h : ofImmediate code imm5 = .ok s) : code ≤ 3 := by
  by_contra hlt
  rw [ofImmediate_of_three_lt (UInt32.not_le.mp hlt)] at h
  cases h

theorem ofImmediate_three (imm5 : UInt32) :
    ofImmediate 3 imm5 = .ok (if imm5 = 0 then ⟨.rrx, 1⟩ else ⟨.ror, imm5⟩) := rfl

theorem typeCode_of_ofImmediate (h : ofImmediate code imm5 = .ok s) : s.kind.typeCode = code := by
  rcases eq_of_le_three (le_three_of_ofImmediate h) with rfl | rfl | rfl | rfl
  · cases h
    rfl
  · cases h
    rfl
  · cases h
    rfl
  · rw [ofImmediate_three] at h
    split_ifs at h
    · cases h
      rfl
    · cases h
      rfl

/-- A decoded rotation with extend is by one place. -/
theorem amount_of_ofImmediate (h : ofImmediate code imm5 = .ok s) (hk : s.kind = .rrx) :
    s.amount = 1 := by
  have hcode := typeCode_of_ofImmediate h
  rw [hk] at hcode
  subst hcode
  change ofImmediate 3 imm5 = .ok s at h
  rw [ofImmediate_three] at h
  split_ifs at h
  · cases h
    rfl
  · cases h
    cases hk

/-- An amount field of zero stands for the full width. -/
theorem fullWidth_eq_iff {a b : UInt32} :
    (if a = 0 then 32 else a) = (if b = 0 then 32 else b) ↔
      a = b ∨ a = 0 ∧ b = 32 ∨ a = 32 ∧ b = 0 := by
  grind

/-- Two amount fields with one code are decoded alike when they are the same, or when they are the two
ways to write the full width. -/
theorem ofImmediate_eq_iff (h : code ≤ 3) :
    ofImmediate code imm5 = ofImmediate code imm5' ↔
      imm5 = imm5' ∨
        (code = 1 ∨ code = 2) ∧ (imm5 = 0 ∧ imm5' = 32 ∨ imm5 = 32 ∧ imm5' = 0) := by
  rcases eq_of_le_three h with rfl | rfl | rfl | rfl
  · simp [ofImmediate]
  · simp [ofImmediate, fullWidth_eq_iff]
  · simp [ofImmediate, fullWidth_eq_iff]
  · rw [ofImmediate_three, ofImmediate_three]
    split_ifs with hz hz' hz'
    · simp [hz, hz']
    · simp [hz, Ne.symm hz']
    · simp [hz, hz']
    · simp

/-- Decoding keeps the two fields apart but for the two ways to write the full width. -/
theorem eq_iff_of_ofImmediate (hs : ofImmediate code imm5 = .ok s)
    (ht : ofImmediate code' imm5' = .ok t) :
    s = t ↔ code = code' ∧ imm5 = imm5' ∨
      code = code' ∧ (code = 1 ∨ code = 2) ∧ (imm5 = 0 ∧ imm5' = 32 ∨ imm5 = 32 ∧ imm5' = 0) := by
  rw [← and_or_left]
  constructor
  · rintro rfl
    obtain rfl : code = code' := (typeCode_of_ofImmediate hs).symm.trans (typeCode_of_ofImmediate ht)
    exact ⟨rfl, (ofImmediate_eq_iff (le_three_of_ofImmediate hs)).mp (hs.trans ht.symm)⟩
  · rintro ⟨rfl, hfields⟩
    have hdecode := (ofImmediate_eq_iff (le_three_of_ofImmediate hs)).mpr hfields
    rw [hs, ht] at hdecode
    exact Except.ok.inj hdecode

theorem text_eq_iff_of_ofImmediate (hs : ofImmediate code imm5 = .ok s)
    (ht : ofImmediate code' imm5' = .ok t) : s.text = t.text ↔ s = t := by
  rw [text_eq_iff]
  refine or_iff_left_of_imp fun ⟨hks, hkt⟩ => ?_
  exact Shift.ext (hks.trans hkt.symm)
    ((amount_of_ofImmediate hs hks).trans (amount_of_ofImmediate ht hkt).symm)

/-- Two shifts have the same text exactly when they are the same or both are rotations with extend, and
two decoded operands exactly when they have the same fields or are one shift to the right by the full
width, of which the one has zero for its amount and the other the width itself. -/
theorem texts_tell_fields :
    (∀ s t : Shift, s.text = t.text ↔ s = t ∨ s.kind = .rrx ∧ t.kind = .rrx) ∧
    ∀ code imm5 code' imm5' s t,
      ofImmediate code imm5 = .ok s → ofImmediate code' imm5' = .ok t →
      (s.text = t.text ↔ code = code' ∧ imm5 = imm5' ∨
        code = code' ∧ (code = 1 ∨ code = 2) ∧ (imm5 = 0 ∧ imm5' = 32 ∨ imm5 = 32 ∧ imm5' = 0)) := by
  refine ⟨fun s t => text_eq_iff, fun code imm5 code' imm5' s t hs ht => ?_⟩
  rw [text_eq_iff_of_ofImmediate hs ht, eq_iff_of_ofImmediate hs ht]

/-- The two ways to write the full width, and the rotation by one place beside the one with extend. -/
theorem texts_tell_fields_at_zero :
    (∃ s t, ofImmediate 1 0 = .ok s ∧ ofImmediate 1 32 = .ok t ∧ s.text = t.text) ∧
    ∃ s t, ofImmediate 3 0 = .ok s ∧ ofImmediate 3 1 = .ok t ∧ s.text ≠ t.text := by
  obtain ⟨-, hfields⟩ := texts_tell_fields
  refine ⟨⟨⟨.lsr, 32⟩, ⟨.lsr, 32⟩, rfl, rfl, ?_⟩, ⟨.rrx, 1⟩, ⟨.ror, 1⟩, rfl, rfl, fun h => ?_⟩
  · exact (hfields 1 0 1 32 _ _ rfl rfl).mpr (by decide)
  · exact absurd ((hfields 3 0 3 1 _ _ rfl rfl).mp h) (by decide)

end Shift

end ShifterOperand
